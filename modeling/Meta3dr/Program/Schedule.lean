import Meta3dr.Program.Basic

/-!
# What a program writes

Part of a state can be persistent: commands reach it only through the writes they send. The
schedule of a run is the list of these writes, one entry for each command that sends any. The
persistent part depends on the schedule alone, and the states in which a run can be cut are,
persistently, the prefixes of its schedule.

## Main definitions

* `Prog.schedule`: the writes of a run, grouped by command
* `After apply k ws`: the persistent state after the groups of writes `ws`
* `Along apply k ws P`: `P` holds wherever the writes are cut
* `Each P ws`: every write satisfies `P`

## Main results

* `Prog.schedule_bind`: the schedule of a sequence
* `Prog.run_persistent`: the end of a run is the end of its schedule
* `Prog.cut_persistent`, `Prog.exists_cut`: the cuts of a run are the prefixes of its schedule
-/

namespace Program

variable {C R E α β S V K : Type}

/-- The persistent state after groups of writes. -/
def After (apply : K → V → K) (k : K) (ws : List (List V)) : K :=
  ws.foldl (fun k w => w.foldl apply k) k

section After

variable (apply : K → V → K)

@[simp] theorem After_nil (k : K) : After apply k [] = k := rfl

@[simp] theorem After_cons (k : K) (w : List V) (ws : List (List V)) :
    After apply k (w :: ws) = After apply (w.foldl apply k) ws := rfl

@[simp] theorem After_append (k : K) (ws vs : List (List V)) :
    After apply k (ws ++ vs) = After apply (After apply k ws) vs := List.foldl_append

end After

/-- `P` holds of the persistent state wherever the writes are cut. -/
def Along (apply : K → V → K) (k : K) (ws : List (List V)) (P : K → Prop) : Prop :=
  ∀ vs, vs <+: ws → P (After apply k vs)

section Along

variable {apply : K → V → K} {k : K} {P Q : K → Prop} {w : List V} {ws vs : List (List V)}

theorem Along_nil : Along apply k [] P ↔ P k := by
  simp [Along, List.prefix_nil]

theorem Along_cons : Along apply k (w :: ws) P ↔ P k ∧ Along apply (w.foldl apply k) ws P := by
  constructor
  · exact fun h => ⟨h [] List.nil_prefix, fun vs hvs => h (w :: vs)
      ((List.prefix_cons_inj w).mpr hvs)⟩
  · rintro ⟨hk, h⟩ (_ | ⟨v, vs⟩) hvs
    · exact hk
    · obtain ⟨rfl, hrest⟩ := List.cons_prefix_cons.mp hvs
      exact h vs hrest

theorem Along_append :
    Along apply k (ws ++ vs) P ↔ Along apply k ws P ∧ Along apply (After apply k ws) vs P := by
  induction ws generalizing k with
  | nil =>
    rw [List.nil_append, Along_nil, After_nil]
    exact ⟨fun h => ⟨h [] List.nil_prefix, h⟩, And.right⟩
  | cons w ws ih => rw [List.cons_append, Along_cons, Along_cons, After_cons, ih, and_assoc]

/-- What holds at every cut holds at the start. -/
theorem Along.first (h : Along apply k ws P) : P k := h [] List.nil_prefix

/-- What holds at every cut holds at the end. -/
theorem Along.last (h : Along apply k ws P) : P (After apply k ws) := h ws (List.prefix_refl _)

theorem Along.mono (h : Along apply k ws P) (hPQ : ∀ k, P k → Q k) : Along apply k ws Q :=
  fun vs hvs => hPQ _ (h vs hvs)

end Along

/-- Every write of the groups satisfies `P`. -/
def Each (P : V → Prop) (ws : List (List V)) : Prop := ∀ w ∈ ws, ∀ v ∈ w, P v

section Each

variable {apply : K → V → K} {k : K} {I : K → Prop} {P Q : V → Prop} {w : List V}
  {ws vs : List (List V)}

@[simp] theorem Each_nil : Each P ([] : List (List V)) := by simp [Each]

@[simp] theorem Each_cons : Each P (w :: ws) ↔ (∀ v ∈ w, P v) ∧ Each P ws := by simp [Each]

@[simp] theorem Each_append : Each P (ws ++ vs) ↔ Each P ws ∧ Each P vs := by
  simp [Each, or_imp, forall_and]

theorem Each.mono (h : Each P ws) (hPQ : ∀ v, P v → Q v) : Each Q ws :=
  fun w hw v hv => hPQ v (h w hw v hv)

theorem foldl_keeps (hP : ∀ k v, P v → I k → I (apply k v)) (hw : ∀ v ∈ w, P v) (hk : I k) :
    I (w.foldl apply k) := by
  induction w generalizing k with
  | nil => exact hk
  | cons v w ih =>
    exact ih (fun u hu => hw u (List.mem_cons_of_mem _ hu)) (hP k v (hw v List.mem_cons_self) hk)

/-- A property that the writes keep holds at every cut. -/
theorem Each.along (hP : ∀ k v, P v → I k → I (apply k v)) (hws : Each P ws) (hk : I k) :
    Along apply k ws I := by
  induction ws generalizing k with
  | nil => exact Along_nil.mpr hk
  | cons w ws ih =>
    obtain ⟨hw, hws⟩ := Each_cons.mp hws
    exact Along_cons.mpr ⟨hk, ih hws (foldl_keeps hP hw hk)⟩

end Each

/-- One group in front of a schedule; a command that writes nothing leaves no entry. -/
def group (w : List V) (ws : List (List V)) : List (List V) := if w.isEmpty then ws else w :: ws

@[simp] theorem group_nil (ws : List (List V)) : group [] ws = ws := rfl

@[simp] theorem group_cons (v : V) (w : List V) (ws : List (List V)) :
    group (v :: w) ws = (v :: w) :: ws := rfl

theorem group_append (w : List V) (ws vs : List (List V)) :
    group w ws ++ vs = group w (ws ++ vs) := by
  cases w <;> rfl

@[simp] theorem Each_group {P : V → Prop} {w : List V} {ws : List (List V)} :
    Each P (group w ws) ↔ (∀ v ∈ w, P v) ∧ Each P ws := by
  cases w <;> simp [group]

theorem After_group (apply : K → V → K) (k : K) (w : List V) (ws : List (List V)) :
    After apply k (group w ws) = After apply (w.foldl apply k) ws := by
  cases w <;> rfl

namespace Prog

variable (step : S → C → R × S) (out : S → C → List V)

/-- The writes of a run, grouped by command. -/
def schedule : Prog C R E α → S → List (List V)
  | issue c k, s => group (out s c) (schedule (k (step s c).1) (step s c).2)
  | _, _ => []

@[simp] theorem schedule_ret (a : α) (s : S) :
    (ret a : Prog C R E α).schedule step out s = [] := rfl

@[simp] theorem schedule_exit (e : E) (s : S) :
    (exit e : Prog C R E α).schedule step out s = [] := rfl

@[simp] theorem schedule_issue (c : C) (k : R → Prog C R E α) (s : S) :
    (issue c k).schedule step out s =
      group (out s c) ((k (step s c).1).schedule step out (step s c).2) := rfl

/-- The schedule of a sequence. -/
theorem schedule_bind (p : Prog C R E α) (f : α → Prog C R E β) (s : S) :
    (p >>= f).schedule step out s = p.schedule step out s ++ match p.run step s with
      | (.ok a, s') => (f a).schedule step out s'
      | (.error _, _) => [] := by
  induction p generalizing s with
  | ret a => rfl
  | exit e => rfl
  | issue c k ih =>
    rw [issue_bind, schedule_issue, schedule_issue, ih, run_issue, group_append]

@[simp] theorem mem_group {w v : List V} {ws : List (List V)} :
    v ∈ group w ws ↔ v ≠ [] ∧ v = w ∨ v ∈ ws := by
  cases w with
  | nil => simp
  | cons a w =>
    rw [group_cons, List.mem_cons]
    refine or_congr_left ⟨?_, And.right⟩
    rintro rfl
    exact ⟨by simp, rfl⟩

/-- The groups of a schedule are the writes of the commands of the run. -/
theorem mem_schedule {p : Prog C R E α} {s : S} {w : List V} :
    w ∈ p.schedule step out s → ∃ x ∈ p.trace step s, out x.1 x.2 = w := by
  induction p generalizing s with
  | ret a => simp
  | exit e => simp
  | issue c k ih =>
    rw [schedule_issue, mem_group]
    rintro (⟨-, rfl⟩ | hw)
    · exact ⟨(s, c), List.mem_cons_self, rfl⟩
    · obtain ⟨x, hx, hout⟩ := ih _ hw
      exact ⟨x, List.mem_cons_of_mem _ hx, hout⟩

section Ends

/-- A run that returns: its schedule, its result and its last state. -/
structure Returns (p : Prog C R E α) (s : S) (ws : List (List V)) (a : α) (s' : S) : Prop where
  schedule : p.schedule step out s = ws
  run : p.run step s = (.ok a, s')

/-- A run that exits: its schedule and its exit. -/
structure Exits (p : Prog C R E α) (s : S) (ws : List (List V)) (e : E) : Prop where
  schedule : p.schedule step out s = ws
  run : (p.run step s).1 = .error e

variable {step out}

theorem Returns.ret (a : α) (s : S) :
    (Prog.ret a : Prog C R E α).Returns step out s [] a s := ⟨rfl, rfl⟩

theorem Exits.exit (e : E) (s : S) :
    (Prog.exit e : Prog C R E α).Exits step out s [] e := ⟨rfl, rfl⟩

theorem Returns.issue {c : C} {k : R → Prog C R E α} {s s' : S} {ws : List (List V)} {a : α}
    (h : (k (step s c).1).Returns step out (step s c).2 ws a s') :
    (Prog.issue c k).Returns step out s (group (out s c) ws) a s' :=
  ⟨congrArg _ h.schedule, h.run⟩

theorem Exits.issue {c : C} {k : R → Prog C R E α} {s : S} {ws : List (List V)} {e : E}
    (h : (k (step s c).1).Exits step out (step s c).2 ws e) :
    (Prog.issue c k).Exits step out s (group (out s c) ws) e :=
  ⟨congrArg _ h.schedule, h.run⟩

theorem Returns.bind {p : Prog C R E α} {f : α → Prog C R E β} {s s' s'' : S}
    {ws vs : List (List V)} {a : α} {b : β}
    (h : p.Returns step out s ws a s')
    (h' : (f a).Returns step out s' vs b s'') :
    (p >>= f).Returns step out s (ws ++ vs) b s'' := by
  refine ⟨?_, ?_⟩
  · rw [schedule_bind, h.schedule, h.run]
    exact congrArg _ h'.schedule
  · rw [run_bind, h.run]
    exact h'.run

theorem Returns.bind_exits {p : Prog C R E α} {f : α → Prog C R E β} {s s' : S}
    {ws vs : List (List V)} {a : α} {e : E}
    (h : p.Returns step out s ws a s')
    (h' : (f a).Exits step out s' vs e) :
    (p >>= f).Exits step out s (ws ++ vs) e := by
  refine ⟨?_, ?_⟩
  · rw [schedule_bind, h.schedule, h.run]
    exact congrArg _ h'.schedule
  · rw [run_bind, h.run]
    exact h'.run

/-- A program that writes nothing, in front of another one. -/
theorem Returns.then {p : Prog C R E α} {f : α → Prog C R E β} {s s' s'' : S} {ws : List (List V)}
    {a : α} {b : β} (h : p.Returns step out s [] a s')
    (h' : (f a).Returns step out s' ws b s'') : (p >>= f).Returns step out s ws b s'' :=
  h.bind h'

theorem Returns.bind_quiet {p : Prog C R E α} {f : α → Prog C R E β} {s s' s'' : S}
    {ws : List (List V)} {a : α} {b : β} (h : p.Returns step out s ws a s')
    (h' : (f a).Returns step out s' [] b s'') : (p >>= f).Returns step out s ws b s'' :=
  List.append_nil ws ▸ h.bind h'

theorem Returns.then_exits {p : Prog C R E α} {f : α → Prog C R E β} {s s' : S}
    {ws : List (List V)} {a : α} {e : E} (h : p.Returns step out s [] a s')
    (h' : (f a).Exits step out s' ws e) : (p >>= f).Exits step out s ws e :=
  h.bind_exits h'

theorem Exits.bind {p : Prog C R E α} (f : α → Prog C R E β) {s : S} {ws : List (List V)} {e : E}
    (h : p.Exits step out s ws e) :
    (p >>= f).Exits step out s ws e := by
  have hr := h.run
  refine ⟨?_, ?_⟩
  · rw [schedule_bind, h.schedule]
    rcases hp : p.run step s with ⟨_ | _, _⟩ <;> simp_all
  · rw [run_bind]
    rcases hp : p.run step s with ⟨_ | _, _⟩ <;> simp_all

end Ends

section Persistent

variable {step out} {apply : K → V → K} {g : S → K}
  (hout : ∀ s c, g (step s c).2 = (out s c).foldl apply (g s))
include hout

/-- The persistent end of a run is the end of its schedule. -/
theorem run_persistent (p : Prog C R E α) (s : S) :
    g (p.run step s).2 = After apply (g s) (p.schedule step out s) := by
  induction p generalizing s with
  | ret a => rfl
  | exit e => rfl
  | issue c k ih => rw [run_issue, ih, schedule_issue, After_group, hout]

/-- Wherever a run is cut, its persistent state is that of a prefix of the schedule. -/
theorem cut_persistent (p : Prog C R E α) (s : S) (n : ℕ) :
    ∃ ws, ws <+: p.schedule step out s ∧
      g (p.cut step n s) = After apply (g s) ws := by
  induction p generalizing s n with
  | ret a => exact ⟨[], List.nil_prefix, by cases n <;> rfl⟩
  | exit e => exact ⟨[], List.nil_prefix, by cases n <;> rfl⟩
  | issue c k ih =>
    cases n with
    | zero => exact ⟨[], List.nil_prefix, rfl⟩
    | succ n =>
      obtain ⟨ws, hws, he⟩ := ih (step s c).1 (step s c).2 n
      refine ⟨group (out s c) ws, ?_, by rw [cut_issue, he, After_group, hout]⟩
      rw [schedule_issue]
      cases out s c with
      | nil => exact hws
      | cons v w => exact List.prefix_cons_inj _ |>.mpr hws

/-- A command is issued after a prefix of the schedule, and its own writes come next. -/
theorem trace_persistent (p : Prog C R E α) (s : S) {s' : S} {c : C}
    (h : (s', c) ∈ p.trace step s) : ∃ ws, g s' = After apply (g s) ws ∧
      ws ++ group (out s' c) [] <+: p.schedule step out s := by
  induction p generalizing s with
  | ret a => cases h
  | exit e => cases h
  | issue c₀ k ih =>
    rw [schedule_issue]
    rcases List.mem_cons.mp h with he | h
    · obtain ⟨rfl, rfl⟩ := Prod.mk.inj he
      refine ⟨[], rfl, ?_⟩
      cases out s' c with
      | nil => exact List.nil_prefix
      | cons v w => exact ⟨_, rfl⟩
    · obtain ⟨ws, hs, hws⟩ := ih _ _ h
      refine ⟨group (out s c₀) ws, by rw [hs, After_group, hout], ?_⟩
      rw [group_append]
      cases out s c₀ with
      | nil => exact hws
      | cons v w => exact List.prefix_cons_inj _ |>.mpr hws

/-- Every prefix of the schedule is reached by some cut. -/
theorem exists_cut (p : Prog C R E α) (s : S) {ws : List (List V)}
    (hws : ws <+: p.schedule step out s) :
    ∃ n, g (p.cut step n s) = After apply (g s) ws := by
  induction p generalizing s ws with
  | ret a => exact ⟨0, by simp [List.prefix_nil.mp hws]⟩
  | exit e => exact ⟨0, by simp [List.prefix_nil.mp hws]⟩
  | issue c k ih =>
    rcases ws with _ | ⟨w, ws⟩
    · exact ⟨0, by simp⟩
    · rw [schedule_issue] at hws
      have hs := hout s c
      cases ho : out s c with
      | nil =>
        rw [ho] at hws hs
        obtain ⟨n, hn⟩ := ih _ _ hws
        exact ⟨n + 1, by rw [cut_issue, hn, hs]; rfl⟩
      | cons v w' =>
        rw [ho, group_cons] at hws
        rw [ho] at hs
        obtain ⟨rfl, hrest⟩ := List.cons_prefix_cons.mp hws
        obtain ⟨n, hn⟩ := ih _ _ hrest
        exact ⟨n + 1, by rw [cut_issue, hn, hs]; rfl⟩

end Persistent

end Prog

end Program
