import Mathlib

/-!
# The boot log

The script `bootlogd` starts a daemon that captures the messages of a boot in `/tmp/boot`. When it
stops the daemon, it rotates the logs under `/var/log` and moves `/tmp/boot` to `/var/log/boot`. A
restart starts the daemon without the option that names its file, so that it writes to
`/var/log/boot` itself.

## Main definitions

* `State`, `Action`, `act`: the files and the daemon, and the actions of the script
* `boot`, `life`: the actions of a boot, which end with a stop, and those of many boots
* `Kept`: the logs hold the messages captured since the 21st latest stop, in order
* `Orderly`: no message is captured in `/var/log/boot` while `/tmp/boot` waits to be stored

## Main results

* `Inv.act`: what an action keeps
* `kept_of_orderly`: orderly lives keep the logs
* `not_kept`: a restart after which messages change places
-/

namespace Meta3dr.Bootlogd

/-- The file the daemon writes. -/
inductive Target
  | tmp | varLog
  deriving DecidableEq

/-- The files of the boot log, the daemon, and the history: all messages captured so far, and for
each stop that stored a log the number of messages before it, the latest first. `logs` are
`/var/log/boot`, `/var/log/boot.1` and so on, as far as they exist. -/
structure State (M : Type) where
  tmpBoot : Option (List M) := none
  tmpOld : Option (List M) := none
  logs : List (List M) := []
  daemon : Option Target := none
  captured : List M := []
  marks : List ℕ := []

/-- The actions of the script, and what happens between them: the daemon makes its file, or captures
a message. -/
inductive Action (M : Type)
  | start | restart | stop | opened
  | capture (m : M)
  deriving DecidableEq

variable {M : Type}

/-- `rotate 20` and `create`: each log moves up by one, and `boot.21` is dropped. -/
def logrotate (logs : List (List M)) : List (List M) := [] :: logs.take 20

/-- Append messages to the first log, which is made when it is missing. -/
def appendBoot (logs : List (List M)) (ms : List M) : List (List M) :=
  match logs with
  | [] => [ms]
  | l :: ls => (l ++ ms) :: ls

/-- The text of logs, from the oldest to the newest. -/
def text (logs : List (List M)) : List M := logs.reverse.flatten

namespace State

variable (s : State M)

/-- Append messages to a file. -/
def write (t : Target) (ms : List M) : State M :=
  match t with
  | .tmp => { s with tmpBoot := some (s.tmpBoot.getD [] ++ ms) }
  | .varLog => { s with logs := appendBoot s.logs ms }

/-- `start`: the option `-r` renames a log that is already there, unless it was renamed before. A
daemon that runs is left alone. -/
def start : State M :=
  match s.daemon, s.tmpBoot, s.tmpOld with
  | some _, _, _ => s
  | none, some old, none => { s with tmpBoot := none, tmpOld := some old, daemon := some .tmp }
  | none, _, _ => { s with daemon := some .tmp }

/-- `stop`: the logs are rotated when there is one, and `/tmp/boot` becomes the first one. -/
def stop : State M :=
  match s.tmpBoot with
  | none => { s with daemon := none }
  | some log =>
    let logs := if s.logs.isEmpty then s.logs else logrotate s.logs
    { s with
      tmpBoot := none
      logs := log :: logs.tail
      daemon := none
      marks := s.captured.length :: s.marks }

/-- `restart`: the daemon is started anew, without its options. -/
def restart : State M := { s with daemon := some .varLog }

/-- One action; without a daemon no message is captured. -/
def act : Action M → State M
  | .start => s.start
  | .restart => s.restart
  | .stop => s.stop
  | .opened => match s.daemon with
    | some t => s.write t []
    | none => s
  | .capture m => match s.daemon with
    | some t => { s.write t [m] with captured := s.captured ++ [m] }
    | none => s

/-- The machine is switched on: `/tmp` is empty, and no daemon runs. -/
def powerOn : State M := { s with tmpBoot := none, tmpOld := none, daemon := none }

/-- A boot: actions, the last of which is a stop. -/
def boot (as : List (Action M)) : State M := (as.foldl act s.powerOn).act .stop

/-- Many boots. -/
def life (boots : List (List (Action M))) : State M := boots.foldl boot s

/-- The logs in the order boot.20 to boot. -/
def stored : List M := text s.logs

/-- The logs hold, in order and without gaps, the messages captured since the 21st latest stop that
stored a log, and all messages before there are so many. -/
def Kept : Prop :=
  s.stored <:+ s.captured ∧
    match s.marks[20]? with
    | some k => s.captured.drop k <:+ s.stored
    | none => s.stored = s.captured

/-- No message is captured in `/var/log/boot` while `/tmp/boot` waits to be stored. -/
def Orderly : Action M → Prop
  | .capture _ => s.daemon = some .varLog → s.tmpBoot = none
  | _ => True

/-- Every action of a sequence is orderly where it is taken. -/
def OrderlyAll (s : State M) : List (Action M) → Prop
  | [] => True
  | a :: as => s.Orderly a ∧ OrderlyAll (s.act a) as

/-- Every boot of a life is orderly. -/
def OrderlyLife (s : State M) : List (List (Action M)) → Prop
  | [] => True
  | as :: boots => s.powerOn.OrderlyAll as ∧ OrderlyLife (s.boot as) boots

end State

/-- A clean device. -/
def clean : State M := {}

/-! ## What an action keeps -/

@[simp] theorem text_nil : text ([] : List (List M)) = [] := rfl

@[simp] theorem text_cons (l : List M) (ls : List (List M)) : text (l :: ls) = text ls ++ l := by
  simp [text]

theorem text_append (ls ls' : List (List M)) : text (ls ++ ls') = text ls' ++ text ls := by
  simp [text]

/-- The newest logs are the end of all logs. -/
theorem text_take_suffix (n : ℕ) (ls : List (List M)) : text (ls.take n) <:+ text ls := by
  conv_rhs => rw [← List.take_append_drop n ls, text_append]
  exact List.suffix_append _ _

/-- Appending to the first log appends to the text of the newest logs. -/
theorem text_take_appendBoot (n : ℕ) (ls : List (List M)) (ms : List M) :
    text ((appendBoot ls ms).take (n + 1)) = text (ls.take (n + 1)) ++ ms := by
  cases ls <;> simp [appendBoot]

theorem text_appendBoot (ls : List (List M)) (ms : List M) :
    text (appendBoot ls ms) = text ls ++ ms := by
  cases ls <;> simp [appendBoot]

theorem suffix_append_both {as bs : List M} (h : as <:+ bs) (cs : List M) : as ++ cs <:+ bs ++ cs := by
  obtain ⟨t, rfl⟩ := h
  exact ⟨t, by simp⟩

/-- The messages in `/tmp/boot`. -/
def State.pending (s : State M) : List M := s.tmpBoot.getD []

/-- The messages captured are the dropped ones, those in the logs, and those in `/tmp/boot`; the logs
since each of the 21 latest stops reach back to it. -/
structure Inv (s : State M) : Prop where
  idle : s.daemon = none → s.tmpBoot = none
  split : s.stored ++ s.pending <:+ s.captured
  recent : ∀ j ≤ 20, ∀ k, s.marks[j]? = some k →
    s.captured.drop k <:+ text (s.logs.take (j + 1)) ++ s.pending
  length : s.logs.length ≤ s.marks.length + 1
  whole : s.marks.length ≤ 20 → s.captured = s.stored ++ s.pending
  within : ∀ k ∈ s.marks, k ≤ s.captured.length

theorem inv_clean : Inv (clean : State M) where
  idle _ := rfl
  split := by simp [clean, State.stored, State.pending]
  recent j _ k hk := by simp [clean] at hk
  length := by simp [clean]
  whole _ := rfl
  within k hk := by simp [clean] at hk

section Write

variable (s : State M) {t : Target} (ms : List M)
  (hms : ms = [] ∨ (t = .varLog → s.tmpBoot = none))

theorem length_write (t : Target) : (s.write t ms).logs.length ≤ max s.logs.length 1 := by
  cases t with
  | tmp => exact le_max_left _ _
  | varLog => cases h : s.logs <;> simp [State.write, appendBoot, h]

include hms

/-- Messages written in an order that fits come last. -/
theorem text_take_write (n : ℕ) : text ((s.write t ms).logs.take (n + 1)) ++ (s.write t ms).pending =
    text (s.logs.take (n + 1)) ++ s.pending ++ ms := by
  cases t with
  | tmp => simp [State.write, State.pending]
  | varLog =>
    rcases hms with rfl | htmp
    · simp [State.write, State.pending, text_take_appendBoot]
    · simp [State.write, State.pending, text_take_appendBoot, htmp rfl]

theorem text_write : (s.write t ms).stored ++ (s.write t ms).pending =
    s.stored ++ s.pending ++ ms := by
  cases t with
  | tmp => simp [State.write, State.pending, State.stored]
  | varLog =>
    rcases hms with rfl | htmp
    · simp [State.write, State.pending, State.stored, text_appendBoot]
    · simp [State.write, State.pending, State.stored, text_appendBoot, htmp rfl]

end Write

section Keeps

variable {s : State M} (h : Inv s)
include h

/-- Captured messages written to a file, in an order that fits. -/
theorem Inv.write {t : Target} (hd : s.daemon = some t) {ms : List M}
    (hms : ms = [] ∨ (t = .varLog → s.tmpBoot = none)) :
    Inv { s.write t ms with captured := s.captured ++ ms } := by
  have hdrop : ∀ k ∈ s.marks, (s.captured ++ ms).drop k = s.captured.drop k ++ ms := fun k hk =>
    List.drop_append_of_le_length (h.within k hk)
  have hwithin : ∀ k ∈ s.marks, k ≤ (s.captured ++ ms).length := fun k hk =>
    (h.within k hk).trans (by simp)
  have htext := text_write s ms hms
  have htake := fun n => text_take_write s ms hms n
  have hmarks : (s.write t ms).marks = s.marks := by cases t <;> rfl
  refine ⟨fun hn => ?_, ?_, fun j hj k hk => ?_, ?_, fun hw => ?_, ?_⟩
  · have hd' : (s.write t ms).daemon = s.daemon := by cases t <;> rfl
    rw [hd', hd] at hn
    cases hn
  · exact htext ▸ suffix_append_both h.split ms
  · rw [hmarks] at hk
    rw [hdrop k (List.mem_of_getElem? hk)]
    exact htake j ▸ suffix_append_both (h.recent j hj k hk) ms
  · have hlen := length_write s ms t
    have hl := h.length
    simp only [hmarks]
    omega
  · rw [hmarks] at hw
    exact (congrArg (· ++ ms) (h.whole hw)).trans htext.symm
  · rw [hmarks]
    exact hwithin

theorem Inv.start : Inv s.start := by
  unfold State.start
  split
  · exact h
  · rename_i old hd htmp hold
    rw [h.idle hd] at htmp
    cases htmp
  · exact { h with idle := fun hn => by cases hn }

theorem Inv.stop : Inv s.stop := by
  unfold State.stop
  split
  · rename_i htmp
    exact { h with idle := fun _ => htmp }
  · rename_i log htmp
    have hpending : s.pending = log := by simp [State.pending, htmp]
    have hlogs : (if s.logs.isEmpty then s.logs else logrotate s.logs).tail = s.logs.take 20 := by
      cases s.logs <;> simp [logrotate]
    have hsplit := h.split
    rw [hpending] at hsplit
    simp only [hlogs]
    refine ⟨fun _ => rfl, ?_, fun j hj k hk => ?_, ?_, fun hw => ?_, fun k hk => ?_⟩
    · simp only [State.stored, State.pending, text_cons, Option.getD_none, List.append_nil]
      exact (suffix_append_both (text_take_suffix 20 s.logs) log).trans hsplit
    · simp only [State.pending, Option.getD_none, List.append_nil]
      cases j with
      | zero =>
        obtain rfl : s.captured.length = k := by simpa using hk
        rw [List.drop_length]
        exact List.nil_suffix
      | succ j =>
        have hrecent := h.recent j (by omega) k (by simpa using hk)
        rw [hpending] at hrecent
        rw [List.take_succ_cons, text_cons, List.take_take, min_eq_left (by omega)]
        exact hrecent
    · have hl := h.length
      simp only [List.length_cons, List.length_take]
      omega
    · have hl := h.length
      simp only [List.length_cons] at hw
      have hwhole := h.whole (by omega)
      rw [hpending] at hwhole
      simp only [State.stored, State.pending, text_cons, Option.getD_none, List.append_nil]
      rw [List.take_of_length_le (by omega)]
      exact hwhole
    · rcases List.mem_cons.mp hk with rfl | hk
      · exact le_rfl
      · exact h.within k hk

/-- **An orderly action keeps the invariant.** -/
theorem Inv.act {a : Action M} (ha : s.Orderly a) : Inv (s.act a) := by
  cases a with
  | start => exact h.start
  | restart => exact { h with idle := fun hn => by cases hn }
  | stop => exact h.stop
  | opened =>
    simp only [State.act]
    cases hd : s.daemon with
    | none => exact h
    | some t =>
      have hw := h.write hd (Or.inl rfl)
      have heq : ({ s.write t [] with captured := s.captured ++ [] } : State M) = s.write t [] := by
        cases t <;> simp [State.write]
      rw [heq] at hw
      exact hw
  | capture m =>
    simp only [State.act]
    cases hd : s.daemon with
    | none => exact h
    | some t => exact h.write hd (Or.inr fun ht => ha (ht ▸ hd))

theorem Inv.powerOn (htmp : s.tmpBoot = none) : Inv s.powerOn where
  idle _ := rfl
  split := by
    have hsplit := h.split
    rw [State.pending, htmp] at hsplit
    exact hsplit
  recent j hj k hk := by
    have hrecent := h.recent j hj k hk
    rw [State.pending, htmp] at hrecent
    exact hrecent
  length := h.length
  whole hw := by
    have hwhole := h.whole hw
    rw [State.pending, htmp] at hwhole
    exact hwhole
  within := h.within

/-- Orderly actions keep the invariant. -/
theorem Inv.foldl {as : List (Action M)} (ha : s.OrderlyAll as) : Inv (as.foldl State.act s) := by
  induction as generalizing s with
  | nil => exact h
  | cons a as ih => exact ih (h.act ha.1) ha.2

end Keeps

/-- After a stop nothing waits in `/tmp/boot`. -/
theorem tmpBoot_stop (s : State M) : s.stop.tmpBoot = none := by
  unfold State.stop
  split
  · assumption
  · rfl

/-- A boot that is orderly keeps the invariant, and leaves nothing in `/tmp/boot`. -/
theorem Inv.boot {s : State M} (h : Inv s) (htmp : s.tmpBoot = none) {as : List (Action M)}
    (ha : s.powerOn.OrderlyAll as) : Inv (s.boot as) ∧ (s.boot as).tmpBoot = none :=
  ⟨((h.powerOn htmp).foldl ha).stop, tmpBoot_stop _⟩

theorem Inv.life {s : State M} (h : Inv s) (htmp : s.tmpBoot = none)
    {boots : List (List (Action M))} (ha : s.OrderlyLife boots) :
    Inv (s.life boots) ∧ (s.life boots).tmpBoot = none := by
  induction boots generalizing s with
  | nil => exact ⟨h, htmp⟩
  | cons as boots ih =>
    obtain ⟨hboot, htmp'⟩ := h.boot htmp ha.1
    exact ih hboot htmp' ha.2

theorem Inv.kept {s : State M} (h : Inv s) (htmp : s.tmpBoot = none) : s.Kept := by
  have hpending : s.pending = [] := by simp [State.pending, htmp]
  have hsplit := h.split
  rw [hpending, List.append_nil] at hsplit
  refine ⟨hsplit, ?_⟩
  cases hk : s.marks[20]? with
  | none =>
    have hwhole := h.whole (List.getElem?_eq_none_iff.mp hk)
    rw [hpending, List.append_nil] at hwhole
    exact hwhole.symm
  | some k =>
    have hrecent := h.recent 20 le_rfl k hk
    rw [hpending, List.append_nil] at hrecent
    exact hrecent.trans (text_take_suffix _ _)

/-- **The logs are kept in every life whose boots are orderly.** -/
theorem kept_of_orderly (boots : List (List (Action M))) (h : (clean : State M).OrderlyLife boots) :
    (clean.life boots).Kept := by
  obtain ⟨hinv, htmp⟩ := inv_clean.life rfl h
  exact hinv.kept htmp

/-- Two boots with a message in each. -/
theorem kept_of_orderly_two : (clean.life [[.start, .capture 1], [.start, .capture 2]]).Kept :=
  kept_of_orderly (M := ℕ) _ (by simp [State.OrderlyLife, State.OrderlyAll, State.Orderly,
    State.powerOn, State.act, State.start, clean])

/-- A restart after which the messages of a boot change places. -/
theorem not_kept : ¬ ∀ boots : List (List (Action ℕ)), (clean.life boots).Kept := by
  intro h
  have hkept := (h [[.start, .capture 1, .restart, .capture 2]]).1
  revert hkept
  decide

end Meta3dr.Bootlogd
