import Meta3dr.Init.MainPlan

/-!
# The boot after the main part

`mount_and_boot` checks partitions 1 to 3, may format RWFS, and writes files only through the
union mount, whose upper branch is RWFS. Whatever it finds, LATEST, LOG, the partition table and
the boot loader stay as the main part left them, and it always hands over.

## Main definitions

* `BootCmd`, `BootWrite`: the commands of `mount_and_boot`, and their writes
* `Machine.Harmless`: no partition but RWFS is mounted for writing
* `OnlyRwfs c c'`: the cards differ in RWFS and in the outcome of checks

## Main results

* `act_harmless`: a command of `mount_and_boot` sends only such writes
* `mountAndBoot_cut`, `mountAndBoot_run`: the boot after the main part, wherever it is cut
* `restarts_iff`, `HandsOver.onlyRwfs`, `IsCut.cases`, `isCut_of_prefix`: a whole boot
-/

namespace Meta3dr

open Shell Storage Program

/-- The commands of `mount_and_boot`. -/
def BootCmd : Cmd → Prop
  | .device _ | .mkdir _ _ | .expand _ | .mountRoot _ _ | .mountImage _ _ | .mountUnion _ _ _
  | .moveMount _ _ | .cd _ => True
  | .fsck p _ => p ≠ .p4
  | .mountPart p _ | .umountPart p | .mkfs p _ _ => p = .p3
  | _ => False

/-- The writes of these commands. -/
def BootWrite : Write → Prop
  | .fsck p _ => p ≠ .p4
  | .format p _ | .mount p | .flush p | .put p _ _ | .mkdirs p _ => p = .p3
  | _ => False

/-- Nothing but RWFS is written through the mount. -/
def Mount.Harmless (m : Mount) : Prop :=
  match m.source with
  | .part p => p = .p3 ∨ m.readOnly = true
  | .union (some p) _ => p = .p3
  | _ => True

/-- No partition but RWFS is mounted for writing. -/
def Machine.Harmless (s : Machine) : Prop := ∀ m ∈ s.mounts, m.Harmless

/-- An effect writes RWFS only, and keeps it so. -/
structure Effect.Harmless (e : Effect) : Prop where
  writes : ∀ v ∈ e.writes, BootWrite v
  mounts : ∀ m ∈ e.mounts, m.Harmless

section Effects

variable {s : Machine} (hs : s.Harmless)
include hs

theorem answer_harmless (r : Reply) : (s.answer r).Harmless := ⟨by simp, hs⟩

theorem fail_harmless : s.fail.Harmless := answer_harmless hs _

theorem send_harmless {ws : List Write} (h : ∀ v ∈ ws, BootWrite v) : (s.send ws).Harmless :=
  ⟨h, hs⟩

theorem put_harmless (p : Path) (n : Node) : (s.put p n).Harmless := by
  unfold Machine.put
  split
  · exact ⟨by simp, hs⟩
  · rename_i m hm
    have hmem := hs m (List.mem_of_find?_eq_some hm)
    unfold Mount.Harmless at hmem
    split_ifs with hro
    · exact fail_harmless hs
    · split <;> rename_i hsrc <;> try rw [hsrc] at hmem
      · refine send_harmless hs fun v hv => ?_
        rw [List.mem_singleton.mp hv]
        exact hmem.resolve_right hro
      · refine send_harmless hs fun v hv => ?_
        rw [List.mem_singleton.mp hv]
        exact hmem
      · exact fail_harmless hs

theorem mkdirs_harmless (x : Circumstances) (w : World) (b : Bool) (p : Path) :
    (act w x b s (.mkdir .parents p)).Harmless := by
  simp only [act]
  split
  · exact ⟨by simp, hs⟩
  · rename_i q lower ro hm
    have hq : q = .p3 := hs _ (List.mem_of_find?_eq_some hm)
    split_ifs
    · exact answer_harmless hs _
    · refine send_harmless hs fun v hv => ?_
      rw [List.mem_singleton.mp hv]
      exact hq
  · exact fail_harmless hs

theorem mountOn_harmless {src : Source} {dir : Path} {ro : Bool} {ws : List Write}
    (hm : Mount.Harmless ⟨dir, src, ro⟩) (hw : ∀ v ∈ ws, BootWrite v) :
    (s.mountOn src dir ro ws).Harmless := by
  unfold Machine.mountOn
  split_ifs
  · exact ⟨hw, by simpa using ⟨hm, hs⟩⟩
  · exact fail_harmless hs

theorem mountPart_harmless (b : Bool) {p : Part} {ro : Bool} (hp : p = .p3 ∨ ro = true)
    (dir : Path) : (mountPart b s p dir ro).Harmless := by
  unfold mountPart
  split_ifs with h hro
  · exact mountOn_harmless hs hp (by simp)
  · refine mountOn_harmless hs hp fun v hv => ?_
    rw [List.mem_singleton.mp hv]
    exact hp.resolve_right hro
  · exact fail_harmless hs

theorem umountWhere_harmless {b : Mount → Bool}
    (hb : ∀ m : Mount, ∀ p, m.source = .part p → b m = true → p = .p3) :
    (s.umountWhere b).Harmless := by
  unfold Machine.umountWhere
  split
  · exact fail_harmless hs
  · rename_i m hm
    split_ifs
    · exact fail_harmless hs
    · refine ⟨fun v hv => ?_, fun m' hm' => hs m' (List.mem_of_mem_eraseP hm')⟩
      cases hsrc : m.source with
      | part p =>
        rw [hsrc, Machine.flushOf, List.mem_singleton] at hv
        rw [hv]
        exact hb m p hsrc (List.find?_some hm)
      | _ => simp [hsrc, Machine.flushOf] at hv

end Effects

/-- **A command of `mount_and_boot` writes RWFS only**, whether the nodes of the card are there or
not. -/
theorem act_harmless (w : World) (x : Circumstances) (b : Bool) {s : Machine} {c : Cmd}
    (hc : BootCmd c) (hs : s.Harmless) : (act w x b s c).Harmless := by
  cases c with
  | device l => exact answer_harmless hs _
  | mkdir opt p =>
    cases opt with
    | f => exact fail_harmless hs
    | plain =>
      simp only [act]
      split_ifs
      · exact put_harmless hs _ _
      · exact fail_harmless hs
    | parents => exact mkdirs_harmless hs x w b p
  | expand t => exact answer_harmless hs _
  | fsck p kind =>
    simp only [act]
    split_ifs
    · exact ⟨fun v hv => (List.mem_singleton.mp hv).symm ▸ hc, hs⟩
    · exact answer_harmless hs _
  | mountPart p dir =>
    simp only [act]
    split_ifs
    · exact fail_harmless hs
    · exact mountPart_harmless hs b (Or.inl hc) dir
  | mountRoot device dir =>
    simp only [act]
    repeat' split
    all_goals first
      | exact fail_harmless hs
      | exact mountPart_harmless hs b (Or.inr rfl) dir
  | mountImage images dir =>
    simp only [act]
    repeat' split
    all_goals first
      | exact fail_harmless hs
      | exact mountOn_harmless hs trivial (by simp)
  | mountUnion upper lower dir =>
    simp only [act]
    refine mountOn_harmless hs ?_ (by simp)
    split <;> rename_i hup
    · exact (hs _ (List.mem_of_find?_eq_some hup)).resolve_right Bool.false_ne_true
    · trivial
  | moveMount src dst =>
    simp only [act]
    split_ifs
    · refine ⟨by simp, fun m hm => ?_⟩
      obtain ⟨m', hm', rfl⟩ := List.mem_map.mp hm
      split_ifs
      · exact hs m' hm'
      · exact hs m' hm'
    · exact fail_harmless hs
  | umountPart p =>
    refine umountWhere_harmless hs fun m q hsrc hm => ?_
    have hqp : q = p := by simpa [Mount.isPart, hsrc] using hm
    exact hqp.trans hc
  | mkfs p kind label =>
    simp only [act]
    split_ifs
    · exact send_harmless hs fun v hv => (List.mem_singleton.mp hv).symm ▸ hc
    · exact fail_harmless hs
  | cd p =>
    simp only [act]
    split_ifs
    · exact ⟨by simp, hs⟩
    · exact fail_harmless hs
  | _ => exact hc.elim

/-! ## What such writes leave alone -/

/-- The second card differs from the first in RWFS and in the outcome of checks. -/
structure OnlyRwfs (c c' : Card) : Prop where
  table : c'.table = c.table
  capacity : c'.capacity = c.capacity
  loader : c'.loader = c.loader
  files : ∀ p, p ≠ .p3 → c'.files p = c.files p
  log : c'.holds .p4 = c.holds .p4

theorem OnlyRwfs.refl (c : Card) : OnlyRwfs c c := ⟨rfl, rfl, rfl, fun _ _ => rfl, rfl⟩

theorem OnlyRwfs.trans {c c' c'' : Card} (h : OnlyRwfs c c') (h' : OnlyRwfs c' c'') :
    OnlyRwfs c c'' where
  table := h'.table.trans h.table
  capacity := h'.capacity.trans h.capacity
  loader := h'.loader.trans h.loader
  files p hp := (h'.files p hp).trans (h.files p hp)
  log := h'.log.trans h.log

/-- Overwriting a partition with the files it has, or RWFS with anything. -/
theorem OnlyRwfs.write (c : Card) {p : Part} {content : Option FileSystem} (hp : p ≠ .p4)
    (hf : p = .p3 ∨ content.elim ∅ FileSystem.files = c.files p) : OnlyRwfs c (c.write p content) where
  table := c.write_table p content
  capacity := c.write_capacity p content
  loader := c.write_loader p content
  log := c.holds_write_of_ne content (Ne.symm hp)
  files q hq := by
    by_cases hqp : q = p
    · subst hqp
      cases he : c.table.entry q with
      | none => simp [Card.files, Card.holds, Card.write, he]
      | some e =>
        rw [Card.files, c.holds_write_self content (by simp [he])]
        exact hf.resolve_left hq
    · rw [Card.files, c.holds_write_of_ne content hqp, Card.files]

theorem OnlyRwfs.apply (c : Card) {v : Write} (hv : BootWrite v) : OnlyRwfs c (c.apply v) := by
  have hedit : ∀ f hf, OnlyRwfs c (c.edit .p3 f hf) := fun f hf => by
    unfold Card.edit
    split
    · exact .write c (by decide) (Or.inl rfl)
    · exact .refl c
  cases v with
  | fsck p kind =>
    simp only [Card.apply]
    split
    · rename_i fs hfs
      split_ifs
      · exact .write c hv (Or.inr (by simp [Card.files, hfs]))
      · exact .refl c
    · exact .refl c
  | format p content =>
    have hp : p = .p3 := hv
    subst hp
    exact .write c (by decide) (Or.inl rfl)
  | put p path node =>
    have hp : p = .p3 := hv
    subst hp
    exact hedit _ _
  | mkdirs p path =>
    have hp : p = .p3 := hv
    subst hp
    exact hedit _ _
  | mount p => exact .refl c
  | flush p => exact .refl c
  | _ => exact hv.elim

theorem OnlyRwfs.foldl (c : Card) {vs : List Write} (hv : ∀ v ∈ vs, BootWrite v) :
    OnlyRwfs c (vs.foldl Card.apply c) := by
  induction vs generalizing c with
  | nil => exact .refl c
  | cons v vs ih =>
    exact (OnlyRwfs.apply c (hv v List.mem_cons_self)).trans
      (ih (c.apply v) fun u hu => hv u (List.mem_cons_of_mem _ hu))

/-! ## `mount_and_boot` -/

theorem mountImages_only (rootDevice : Text) :
    (mountImages rootDevice).Only BootCmd fun _ => False := by
  simp [mountImages, sh, out, BootCmd]

theorem checkRwfs_only : checkRwfs.Only BootCmd fun _ => False := by
  simp only [checkRwfs, status_bind, Prog.only_issue]
  refine ⟨by simp [BootCmd], fun r => ?_⟩
  split_ifs
  · simp [setLedUpdating, setLedDone, sh, BootCmd]
  · exact Prog.only_ret _

theorem mountRootfs_only : mountRootfs.Only BootCmd (· = .handover) := by
  simp [mountRootfs, bootLiveRoot, sh, BootCmd]

theorem mountAndBoot_only (rootDevice : Text) :
    (mountAndBoot rootDevice).Only BootCmd (· = .handover) :=
  ((mountImages_only rootDevice).mono (fun _ h => h) fun _ h => h.elim).bind fun _ =>
    (checkRwfs_only.mono (fun _ h => h) fun _ h => h.elim).bind fun _ => mountRootfs_only

/-- Along `mount_and_boot` the card differs from the one at its start in RWFS only. -/
structure BootFrom (c : Card) (s : Machine) : Prop where
  harmless : s.Harmless
  onlyRwfs : OnlyRwfs c s.card

variable {w : World} {x : Circumstances}

theorem BootFrom.step {c : Card} {s : Machine} {cmd : Cmd} (hc : BootCmd cmd) (h : BootFrom c s) :
    BootFrom c (step w x s cmd).2 := by
  have hact := act_harmless w x true hc h.harmless
  exact ⟨hact.mounts, h.onlyRwfs.trans (.foldl s.card hact.writes)⟩

theorem BootFrom.booting (c : Card) (r : Files) (d : Path) :
    BootFrom c ⟨c, r, baseMounts, d⟩ := by
  refine ⟨fun m hm => ?_, .refl c⟩
  simp only [baseMounts, List.mem_cons, List.not_mem_nil, or_false] at hm
  rcases hm with rfl | rfl | rfl <;> trivial

/-- `mount_and_boot` hands over. -/
theorem mountAndBoot_handover (rootDevice : Text) (s : Machine) :
    ((mountAndBoot rootDevice).run (Meta3dr.step w x) s).1 = .error .handover := by
  simp only [mountAndBoot, mountImages, checkRwfs, mountRootfs, bootLiveRoot, setLedUpdating,
    setLedDone, sh_bind, out_bind, status_bind, Prog.issue_bind, Prog.ite_bind, Prog.run_issue]
  split_ifs <;> rfl

/-- Wherever `mount_and_boot` is cut, only RWFS and checks have changed. -/
theorem mountAndBoot_cut (rootDevice : Text) {c : Card} {s : Machine} (h : BootFrom c s) (n : ℕ) :
    OnlyRwfs c ((mountAndBoot rootDevice).cut (Meta3dr.step w x) n s).card :=
  (((mountAndBoot_only rootDevice).wp (fun _ _ hc hs => ⟨hs, hs.step hc⟩) h).mono
    (fun _ _ h => h) (fun _ _ h => h) (fun _ _ h => h.2) |>.cut n).onlyRwfs

theorem mountAndBoot_run (rootDevice : Text) {c : Card} {s : Machine} (h : BootFrom c s) :
    OnlyRwfs c ((mountAndBoot rootDevice).run (Meta3dr.step w x) s).2.card := by
  rw [← Prog.cut_length _ _ _ _ le_rfl]
  exact mountAndBoot_cut rootDevice h _

/-! ## RWFS after the boot -/

section Rwfs

/-- The commands up to the check of RWFS. -/
def ImageCmd : Cmd → Prop
  | .device _ | .mkdir _ _ | .expand _ | .mountRoot _ _ | .mountImage _ _ | .fsck _ _ => True
  | _ => False

theorem put_mounts (s : Machine) (p : Path) (n : Node) : (s.put p n).mounts = s.mounts := by
  unfold Machine.put
  repeat' split
  all_goals rfl

/-- These commands unmount nothing. -/
theorem imageCmd_mounts {s : Machine} {c : Cmd} (hc : ImageCmd c) :
    ∃ ms, (act w x true s c).mounts = ms ++ s.mounts := by
  cases c with
  | device l => exact ⟨[], rfl⟩
  | expand t => exact ⟨[], rfl⟩
  | mkdir opt p =>
    cases opt with
    | f => exact ⟨[], rfl⟩
    | plain =>
      simp only [act]
      split_ifs
      · exact ⟨[], put_mounts s p .dir⟩
      · exact ⟨[], rfl⟩
    | parents =>
      simp only [act]
      repeat' split
      all_goals exact ⟨[], rfl⟩
  | fsck p kind =>
    simp only [act]
    split_ifs <;> exact ⟨[], rfl⟩
  | mountRoot device dir =>
    simp only [act, mountPart, Machine.mountOn]
    repeat' split
    all_goals first
      | exact ⟨[], rfl⟩
      | exact ⟨[_], rfl⟩
  | mountImage images dir =>
    simp only [act, Machine.mountOn]
    repeat' split
    all_goals first
      | exact ⟨[], rfl⟩
      | exact ⟨[_], rfl⟩
  | _ => exact hc.elim

theorem mountImages_wp (rootDevice : Text) {c : Card} {s : Machine} (h : BootFrom c s)
    (hdev : s.hasDev = true) :
    (mountImages rootDevice).wp (Meta3dr.step w x) (fun _ _ => True)
      (fun _ s => BootFrom c s ∧ s.hasDev = true) (fun _ _ => False) s := by
  have honly : (mountImages rootDevice).Only (fun c => BootCmd c ∧ ImageCmd c) fun _ => False := by
    simp [mountImages, sh, out, BootCmd, ImageCmd]
  refine (honly.wp (I := fun _ _ => True) (fun s cmd hcmd hs => ⟨trivial, hs.1.step hcmd.1, ?_⟩)
    ⟨h, hdev⟩).mono (fun _ _ h => h) (fun _ _ h => h) fun _ _ h => h.1
  obtain ⟨ms, hms⟩ := imageCmd_mounts (w := w) (x := x) (s := s) hcmd.2
  have hmounts : (Meta3dr.step w x s cmd).2.mounts = ms ++ s.mounts := hms
  unfold Machine.hasDev at hs ⊢
  rw [hmounts, List.any_append, hs.2, Bool.or_true]

theorem hasDev_umountPart {s : Machine} (hdev : s.hasDev = true) (p : Part) :
    (s.after (s.umountWhere (·.isPart p))).hasDev = true := by
  unfold Machine.umountWhere
  split
  · exact hdev
  · split_ifs
    · exact hdev
    · obtain ⟨m, hm, hsrc⟩ := List.any_eq_true.mp hdev
      refine List.any_eq_true.mpr ⟨m, (List.mem_eraseP_of_neg ?_).mpr hm, hsrc⟩
      unfold Mount.isPart
      cases hs : m.source with
      | pseudo name => simp
      | _ => simp [hs] at hsrc

/-- Unmounting changes nothing on the card. -/
theorem umountWhere_card (s : Machine) (b : Mount → Bool) :
    (s.after (s.umountWhere b)).card = s.card := by
  unfold Machine.umountWhere
  split
  · rfl
  · rename_i m hm
    split_ifs
    · rfl
    · rw [Machine.after_mk]
      cases m.source <;> rfl

/-- After its check RWFS can be mounted: the check repaired it, or it was formatted. -/
theorem checkRwfs_wp (hx : x.mkfsFails .p3 = none) {s : Machine} (hdev : s.hasDev = true)
    (hp : (s.card.table.entry .p3).isSome) :
    checkRwfs.wp (Meta3dr.step w x) (fun _ _ => True)
      (fun _ s => s.card.usable .p3 .ext3 = true) (fun _ _ => False) s := by
  have hfsck : act w x true s (.fsck .p3 .ext3) =
      ⟨{ status := s.card.fsckStatus .p3 .ext3 }, [.fsck .p3 .ext3], s.ram, s.mounts, s.cwd⟩ := by
    simp [act, hdev]
  have hled : ∀ (t : Machine) (l : String), (Meta3dr.step w x t (.device l)).2 = t := fun _ _ => rfl
  have hs₁ : (Meta3dr.step w x s (.fsck .p3 .ext3)).2 =
      { s with card := s.card.apply (.fsck .p3 .ext3) } := by simp [Meta3dr.step, hfsck]
  have hstatus : (Meta3dr.step w x s (.fsck .p3 .ext3)).1.status = s.card.fsckStatus .p3 .ext3 := by
    simp [Meta3dr.step, hfsck]
  simp only [checkRwfs, status_bind, Prog.wp_issue, true_and, hs₁, hstatus]
  generalize hs' : ({ s with card := s.card.apply (.fsck .p3 .ext3) } : Machine) = s'
  have hdev' : s'.hasDev = true := by rw [← hs']; exact hdev
  have hp' : (s'.card.table.entry .p3).isSome := by
    rw [← hs']
    simpa [Card.apply_table] using hp
  split_ifs with h
  · simp only [setLedUpdating, setLedDone, sh, Prog.issue_bind, Prog.ret_bind, Prog.wp_issue,
      Prog.wp_ret, true_and, hled]
    have hcard : (Meta3dr.step w x s' (.umountPart .p3)).2.card = s'.card := umountWhere_card s' _
    have hdev'' : (Meta3dr.step w x s' (.umountPart .p3)).2.hasDev = true :=
      hasDev_umountPart hdev' .p3
    generalize (Meta3dr.step w x s' (.umountPart .p3)).2 = s'' at hcard hdev'' ⊢
    rw [Meta3dr.step, act_mkfs hdev'', Machine.after_send]
    simp only [List.foldl_cons, List.foldl_nil, formatted, hx, Option.getD_none, Card.apply, hcard]
    simp [Card.usable, Card.holds_write_self _ _ hp', fresh]
  · rw [← hs']
    exact s.card.usable_apply_fsck (Nat.lt_of_not_le h)

/-- The commands from the mount of RWFS on. -/
def UnionCmd : Cmd → Prop
  | .device _ | .mkdir .parents _ | .mountUnion _ _ _ | .moveMount _ _ | .cd _ => True
  | .mountPart p _ => p = .p3
  | _ => False

theorem unionCmd_usable {s : Machine} {c : Cmd} (hc : UnionCmd c) (hs : s.Harmless)
    (hm : s.card.usable .p3 .ext3 = true) : (Meta3dr.step w x s c).2.card.usable .p3 .ext3 = true := by
  cases c with
  | device l => exact hm
  | mkdir opt p =>
    cases opt with
    | parents =>
      simp only [Meta3dr.step, act]
      split
      · exact hm
      · rename_i q lower ro hq
        have hq : q = .p3 := hs _ (List.mem_of_find?_eq_some hq)
        subst hq
        split_ifs
        · exact hm
        · obtain ⟨fs, hfs, hfm⟩ := (Option.any_eq_true _ _).mp hm
          simpa [Card.apply, Card.usable, Card.holds_edit_self, hfs, FileSystem.edit] using hfm
      · exact hm
    | _ => exact hc.elim
  | mountPart p dir =>
    simp only [Meta3dr.step, act, mountPart, Machine.mountOn]
    split_ifs <;> exact hm
  | mountUnion upper lower dir =>
    simp only [Meta3dr.step, act, Machine.mountOn]
    split_ifs <;> exact hm
  | moveMount src dst =>
    simp only [Meta3dr.step, act]
    split_ifs <;> exact hm
  | cd p =>
    simp only [Meta3dr.step, act]
    split_ifs <;> exact hm
  | _ => exact hc.elim

theorem mountRootfs_wp {c : Card} {s : Machine} (hs : BootFrom c s)
    (hm : s.card.usable .p3 .ext3 = true) :
    mountRootfs.wp (Meta3dr.step w x) (fun _ _ => True) (fun _ s => s.card.usable .p3 .ext3 = true)
      (fun _ s => s.card.usable .p3 .ext3 = true) s := by
  have honly : mountRootfs.Only (fun c => BootCmd c ∧ UnionCmd c) fun _ => True := by
    simp [mountRootfs, bootLiveRoot, sh, BootCmd, UnionCmd]
  refine (honly.wp (J := fun s => BootFrom c s ∧ s.card.usable .p3 .ext3 = true)
    (I := fun _ _ => True) (fun s cmd hcmd hs => ⟨trivial, hs.1.step hcmd.1, ?_⟩) ⟨hs, hm⟩).mono
    (fun _ _ h => h) (fun _ _ h => h.2) fun _ _ h => h.2.2
  exact unionCmd_usable hcmd.2 hs.1.harmless hs.2

/-- **RWFS can be mounted when the root filesystem takes over.** -/
theorem mountAndBoot_rwfs (hx : x.mkfsFails .p3 = none) (rootDevice : Text) {c : Card}
    (hp : (c.table.entry .p3).isSome) (r : Files) {e : Except Exit Unit} {s : Machine}
    (hrun : (mountAndBoot rootDevice).run (Meta3dr.step w x) ⟨c, r, baseMounts, []⟩ = (e, s)) :
    s.card.usable .p3 .ext3 = true := by
  have hwp : (mountAndBoot rootDevice).wp (Meta3dr.step w x) (fun _ _ => True)
      (fun _ s => s.card.usable .p3 .ext3 = true) (fun _ s => s.card.usable .p3 .ext3 = true)
      ⟨c, r, baseMounts, []⟩ := by
    unfold mountAndBoot
    rw [Prog.wp_bind]
    refine (mountImages_wp rootDevice (.booting c r []) (hasDev_base c r [])).mono
      (fun _ _ h => h) (fun _ s hs => ?_) fun _ _ h => h.elim
    rw [Prog.wp_bind]
    have hp' : (s.card.table.entry .p3).isSome := by
      rw [hs.1.onlyRwfs.table]
      exact hp
    have hframe : checkRwfs.wp (Meta3dr.step w x) (fun _ _ => True) (fun _ s => BootFrom c s)
        (fun e s => False ∧ BootFrom c s) s :=
      checkRwfs_only.wp (fun _ _ hc hs => ⟨trivial, hs.step hc⟩) hs.1
    refine (hframe.and (checkRwfs_wp hx hs.2 hp')).mono (fun _ _ _ => trivial) (fun _ s hs => ?_)
      fun _ _ h => h.2.elim
    exact (mountRootfs_wp hs.1 hs.2)
  cases e with
  | ok a => exact hwp.of_ret hrun
  | error e => exact hwp.of_exit hrun

end Rwfs

/-! ## A whole boot -/

variable (w x)

/-- An undisturbed boot ends in a restart and leaves this card. -/
def Restarts (c c' : Card) : Prop :=
  ∃ s, init.run (step w x) (powerOn w c) = (.error .reboot, s) ∧ s.card = c'

/-- An undisturbed boot hands over to the root filesystem and leaves this card. -/
def HandsOver (c c' : Card) : Prop :=
  ∃ s, init.run (step w x) (powerOn w c) = (.error .handover, s) ∧ s.card = c'

/-- The power is cut between two commands of a boot, or after its last one. -/
def IsCut (c c' : Card) : Prop := ∃ n, (init.cut (step w x) n (powerOn w c)).card = c'

variable {w x} {c c' : Card}

theorem init_exits (h : restarts w x c = true) :
    init.Exits (step w x) (writes w x) (powerOn w c) (mainPlan w x c) .reboot :=
  (main_exits h).bind _

theorem booting_from (w : World) (x : Circumstances) (c : Card) :
    BootFrom (After Card.apply c (mainPlan w x c)) (booting w x c) := .booting _ _ _

theorem init_run (h : restarts w x c = false) :
    init.run (step w x) (powerOn w c) =
      (mountAndBoot (args w c).rootDevice).run (step w x) (booting w x c) := by
  rw [init, Prog.run_bind, (main_returns h).run]

/-- **A boot restarts the machine exactly when it finds a request**, and then the card is that of
its plan. -/
theorem restarts_iff : Restarts w x c c' ↔
    restarts w x c = true ∧ c' = After Card.apply c (mainPlan w x c) := by
  have hcard := Prog.run_persistent (g := Machine.card) (step_card w x) init (powerOn w c)
  constructor
  · rintro ⟨s, hs, rfl⟩
    cases h : restarts w x c with
    | true =>
      rw [hs, (init_exits h).schedule] at hcard
      exact ⟨rfl, hcard⟩
    | false =>
      have hover := mountAndBoot_handover (w := w) (x := x) (args w c).rootDevice (booting w x c)
      rw [← init_run h, hs] at hover
      cases hover
  · rintro ⟨h, rfl⟩
    rw [(init_exits h).schedule] at hcard
    exact ⟨_, Prog.run_eq _ (init_exits h).run, hcard⟩

theorem exists_handsOver (h : restarts w x c = false) : ∃ c', HandsOver w x c c' := by
  have hover := mountAndBoot_handover (w := w) (x := x) (args w c).rootDevice (booting w x c)
  rw [← init_run h] at hover
  exact ⟨_, _, Prog.run_eq _ hover, rfl⟩

section HandsOver

variable (h : HandsOver w x c c')
include h

theorem HandsOver.restarts : restarts w x c = false := by
  obtain ⟨s, hs, -⟩ := h
  by_contra hr
  have hrun := (init_exits (eq_true_of_ne_false hr)).run
  rw [hs] at hrun
  cases hrun

/-- **A boot that hands over leaves the card of its plan, up to RWFS and to checks.** -/
theorem HandsOver.onlyRwfs : OnlyRwfs (After Card.apply c (mainPlan w x c)) c' := by
  obtain ⟨s, hs, rfl⟩ := id h
  have hrwfs := mountAndBoot_run (w := w) (x := x) (args w c).rootDevice (booting_from w x c)
  rw [← init_run h.restarts, hs] at hrwfs
  exact hrwfs

theorem HandsOver.rwfs (hx : x.mkfsFails .p3 = none) (hp : (c'.table.entry .p3).isSome) :
    c'.usable .p3 .ext3 = true := by
  rw [h.onlyRwfs.table] at hp
  have hr := h.restarts
  obtain ⟨s, hs, rfl⟩ := h
  rw [init_run hr] at hs
  exact mountAndBoot_rwfs hx _ hp _ hs

end HandsOver

/-- The writes of a boot begin with its plan. -/
theorem mainPlan_begins (w : World) (x : Circumstances) (c : Card) :
    mainPlan w x c <+: init.schedule (step w x) (writes w x) (powerOn w c) := by
  cases h : Meta3dr.restarts w x c with
  | true => rw [(init_exits h).schedule]
  | false =>
    rw [init, Prog.schedule_bind, (main_returns h).schedule]
    exact List.prefix_append _ _

/-- **A cut boot leaves the card of a prefix of its plan**, or one past the plan. -/
theorem IsCut.cases (h : IsCut w x c c') :
    (∃ ws, ws <+: mainPlan w x c ∧ c' = After Card.apply c ws) ∨
      Meta3dr.restarts w x c = false ∧ OnlyRwfs (After Card.apply c (mainPlan w x c)) c' := by
  obtain ⟨n, rfl⟩ := h
  cases hr : Meta3dr.restarts w x c with
  | true =>
    obtain ⟨ws, hws, hcard⟩ := Prog.cut_persistent (g := Machine.card) (step_card w x)
      init (powerOn w c) n
    rw [(init_exits hr).schedule] at hws
    exact Or.inl ⟨ws, hws, hcard⟩
  | false =>
    rcases Prog.cut_bind (step w x) main mountAndBoot (powerOn w c) n with
      hcut | ⟨a, s', m, hrun, hcut⟩
    · obtain ⟨ws, hws, hcard⟩ := Prog.cut_persistent (g := Machine.card) (step_card w x)
        main (powerOn w c) n
      rw [(main_returns hr).schedule] at hws
      exact Or.inl ⟨ws, hws, (congrArg Machine.card hcut).trans hcard⟩
    · rw [(main_returns hr).run] at hrun
      obtain ⟨rfl, rfl⟩ : (args w c).rootDevice = a ∧ booting w x c = s' := by
        simpa using hrun
      refine Or.inr ⟨rfl, ?_⟩
      have hcard := congrArg Machine.card hcut
      rw [← init] at hcard
      rw [hcard]
      exact mountAndBoot_cut _ (booting_from w x c) m

/-- Every prefix of the plan is reached by a cut. -/
theorem isCut_of_prefix {ws : List (List Write)} (hws : ws <+: mainPlan w x c) :
    IsCut w x c (After Card.apply c ws) :=
  Prog.exists_cut (g := Machine.card) (step_card w x) init (powerOn w c)
    (hws.trans (mainPlan_begins w x c))

end Meta3dr
