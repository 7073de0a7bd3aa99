import Meta3dr.Program.Basic

/-!
# Triples of command programs

A triple says of a program what holds of every command it issues, of the state it returns in and of
the state it exits in, when it is run from a state with the precondition. The rules follow the syntax
of the program, so that a program is proved command by command without its states.

## Main definitions

* `Prog.Triple step I P p Q X`: from `P` the commands of `p` satisfy `I`, a result ends in `Q` and an
  exit in `X`

## Main results

* `Triple.issue`, `Triple.bind`, `Triple.ite`: the rules of the syntax
* `Triple.mono`: the rule of consequence
* `Triple.of_only`: a precondition that all commands of a program keep
-/

namespace Program.Prog

variable {C R E α β S : Type}

/-- Run from a state with `P`, the commands of the program satisfy `I`, a result ends in `Q` and an
exit in `X`. -/
def Triple (step : S → C → R × S) (I : S → C → Prop) (P : S → Prop) (p : Prog C R E α)
    (Q : α → S → Prop) (X : E → S → Prop) : Prop :=
  ∀ s, P s → p.wp step I Q X s

namespace Triple

variable {step : S → C → R × S} {I : S → C → Prop} {P P' : S → Prop} {Q Q' : α → S → Prop}
  {X X' : E → S → Prop}

theorem ret {a : α} (h : ∀ s, P s → Q a s) : Triple step I P (ret a) Q X := h

theorem exit {e : E} (h : ∀ s, P s → X e s) : Triple step I P (exit e : Prog C R E α) Q X := h

/-- A command, and the program that continues with its reply. -/
theorem issue {c : C} {k : R → Prog C R E α} (M : R → S → Prop)
    (hc : ∀ s, P s → I s c ∧ M (step s c).1 (step s c).2)
    (hk : ∀ r, Triple step I (M r) (k r) Q X) : Triple step I P (issue c k) Q X :=
  fun s hs => ⟨(hc s hs).1, hk _ _ (hc s hs).2⟩

/-- The rule of sequence. -/
theorem bind {Q : β → S → Prop} {p : Prog C R E α} {f : α → Prog C R E β} (M : α → S → Prop)
    (hp : Triple step I P p M X) (hf : ∀ a, Triple step I (M a) (f a) Q X) :
    Triple step I P (p >>= f) Q X := fun s hs =>
  (wp_bind _ _ _ _ _ _ _).mpr ((hp s hs).mono (fun _ _ h => h) (fun a s' h => hf a s' h)
    fun _ _ h => h)

theorem ite {b : Prop} [Decidable b] {p q : Prog C R E α} (hp : b → Triple step I P p Q X)
    (hq : ¬ b → Triple step I P q Q X) : Triple step I P (if b then p else q) Q X := by
  by_cases h : b
  · rw [if_pos h]
    exact hp h
  · rw [if_neg h]
    exact hq h

/-- The rule of consequence. -/
theorem mono {p : Prog C R E α} (h : Triple step I P p Q X) (hP : ∀ s, P' s → P s)
    (hQ : ∀ a s, Q a s → Q' a s) (hX : ∀ e s, X e s → X' e s) : Triple step I P' p Q' X' :=
  fun s hs => (h s (hP s hs)).mono (fun _ _ h => h) hQ hX

/-- A precondition that all commands of a program keep holds at its end. -/
theorem of_only {A : C → Prop} {Z : E → Prop} {p : Prog C R E α} (h : p.Only A Z)
    (hc : ∀ s c, A c → P s → I s c ∧ P (step s c).2) :
    Triple step I P p (fun _ => P) fun e s => Z e ∧ P s :=
  fun _ hs => h.wp hc hs

/-- The commands of a run. -/
theorem of_mem_trace {p : Prog C R E α} (h : Triple step I P p Q X) {s : S} (hs : P s) {y : S × C}
    (hy : y ∈ p.trace step s) : I y.1 y.2 :=
  ((wp_iff _ _ _ _ _ _).mp (h s hs)).1 y hy

end Triple

end Program.Prog
