import Meta3dr.Properties.Sample

/-!
# The partition table over a card's life

Five places of the script delete and make partitions, and the power can be cut between any two of
these commands. The next boot decides what to repair from partition 2 and from the check of LOG
alone. Through all of this the table stays a part of the canonical layout, unless a boot finds
LATEST without RWFS and has no reason to reset the card: then LOG takes the number of RWFS.

## Main definitions

* `Turn P c c'`: a boot, cut or not, or any use of the card that leaves its table alone
* `Safe w c`: the table is complete enough for a boot, or the boot resets the card
* `KeepsLayout P`: boots that hand over leave the canonical layout, in runs of boots in `P`

## Main results

* `mainPlan_along`: a safe boot keeps a part of the layout wherever it is cut
* `keepsLayout_iff`: exactly which runs keep the layout
* `not_keepsLayout`: a run that loses it
-/

namespace Meta3dr

open Shell Storage Program

/-- The layout, wherever the writes are cut. -/
abbrev AlongPartial (c : Card) (ws : List (List Write)) : Prop :=
  Along Card.apply c ws Card.Partial

/-! ## Writes that leave the table alone -/

theorem UpdateWrite.keepsTable {v : Write} (h : UpdateWrite v) : v.KeepsTable := by
  cases v <;> first | exact h.elim | trivial

variable {w : World} {x : Circumstances} {c c' : Card} {ws vs : List (List Write)}

theorem keepsTable_along (h : Each Write.KeepsTable ws) (hc : c.Partial) : AlongPartial c ws :=
  h.along (fun d v hv hd => hd.congr hv.apply (d.apply_capacity v)) hc

/-! ## The plans -/

section Plans

/-- LATEST made anew. -/
theorem mkLatest (h : c.Partial) : (c.apply (.mkpart 100 (some 200))).Partial ∧
    (c.apply (.mkpart 100 (some 200))).table.entry =
      Function.update c.table.entry .p2 (some Card.latestExtent) := by
  obtain ⟨g, hg, -⟩ := h.golden
  exact h.mkpart rfl (by simp [Part.numbers, List.takeWhile, hg]) Card.extent_latest

/-- RWFS made anew, with LATEST there. -/
theorem mkRwfs (h : c.Partial) (h₂ : (c.table.entry .p2).isSome) :
    (c.apply (.mkpart 200 (some 300))).Partial ∧
      (c.apply (.mkpart 200 (some 300))).table.entry =
        Function.update c.table.entry .p3 (some Card.rwfsExtent) := by
  obtain ⟨g, hg, -⟩ := h.golden
  exact h.mkpart rfl (by simp [Part.numbers, List.takeWhile, hg, h₂]) Card.extent_rwfs

/-- LOG made anew, with LATEST and RWFS there. -/
theorem mkLog (h : c.Partial) (h₂ : (c.table.entry .p2).isSome) (h₃ : (c.table.entry .p3).isSome) :
    (c.apply (.mkpart 300 none)).Partial ∧
      (c.apply (.mkpart 300 none)).table.entry =
        Function.update c.table.entry .p4 (some c.logExtent) := by
  obtain ⟨g, hg, -⟩ := h.golden
  exact h.mkpart rfl (by simp [Part.numbers, List.takeWhile, hg, h₂, h₃]) Card.extent_log

/-- Two partitions made in a row, and the writes that follow. -/
theorem along_mkpart {a : ℕ} {b : Option ℕ} (h : c.Partial)
    (hrest : AlongPartial (c.apply (.mkpart a b)) ws) :
    AlongPartial c ([.mkpart a b] :: ws) :=
  Along_cons.mpr ⟨h, hrest⟩

/-- RWFS and LOG made and formatted, with LATEST there. -/
theorem rest_along (h : c.Partial) (h₂ : (c.table.entry .p2).isSome) (vs : List (List Write))
    (hvs : Each Write.KeepsTable vs) :
    AlongPartial c ([.mkpart 200 (some 300)] :: [.mkpart 300 none] :: vs) ∧
      (After Card.apply c ([.mkpart 200 (some 300)] :: [.mkpart 300 none] :: vs)).Canonical := by
  obtain ⟨hp₃, he₃⟩ := mkRwfs h h₂
  generalize hd : c.apply (.mkpart 200 (some 300)) = d at hp₃ he₃
  obtain ⟨hp₄, he₄⟩ := mkLog hp₃ (by simp [he₃, h₂]) (by simp [he₃])
  generalize hf : d.apply (.mkpart 300 none) = f at hp₄ he₄
  have hlast : AlongPartial f vs := keepsTable_along hvs hp₄
  have hend : After Card.apply c ([.mkpart 200 (some 300)] :: [.mkpart 300 none] :: vs) =
      After Card.apply f vs := by simp [hd, hf]
  refine ⟨along_mkpart h (hd ▸ along_mkpart hp₃ (hf ▸ hlast)), ?_⟩
  rw [hend]
  refine hlast.last.canonical ?_ ?_ ?_ <;> rw [(After_table hvs).1] <;> simp [he₄, he₃, h₂]

/-- The partitions made at the first boot. -/
theorem create_along (h : c.Partial) :
    AlongPartial c (createPlan x) ∧ (After Card.apply c (createPlan x)).Canonical := by
  obtain ⟨hp₂, he₂⟩ := mkLatest h
  obtain ⟨halong, hend⟩ := rest_along hp₂ (by simp [he₂])
    [[formatted x .p2 .vfat "LATEST"], [formatted x .p3 .ext3 "RWFS"], [formatted x .p4 .ext3 "LOG"]]
    (by simp [formatted, Write.KeepsTable])
  exact ⟨along_mkpart h halong, hend⟩

/-- The settings reset, with LATEST there. -/
theorem reset_along (h : c.Partial) (h₂ : (c.table.entry .p2).isSome) :
    AlongPartial c (resetPlan x) ∧ (After Card.apply c (resetPlan x)).Canonical := by
  have hp := (h.rm (p := .p3) (by decide)).rm (p := .p4) (by decide)
  have he : (((c.apply (.rm .p3)).apply (.rm .p4)).table.entry .p2).isSome := by
    simpa [Card.apply, Table.remove] using h₂
  obtain ⟨halong, hend⟩ := rest_along hp he [[formatted x .p3 .ext3 "RWFS"],
    [formatted x .p4 .ext3 "LOG"]] (by simp [formatted, Write.KeepsTable])
  exact ⟨Along_cons.mpr ⟨h, Along_cons.mpr ⟨h.rm (by decide), halong⟩⟩, hend⟩

theorem remove_along (h : c.Partial) : AlongPartial c removePlan := by
  refine Each.along (P := fun v => ∃ p ≠ .p1, v = .rm p) ?_ (by simp [removePlan]) h
  rintro d v ⟨p, hp, rfl⟩ hd
  exact hd.rm hp

theorem goldenPlan_keepsTable (r : Files) : Each Write.KeepsTable (goldenPlan x r c) := by
  unfold goldenPlan
  split_ifs
  · simp [Write.KeepsTable, (flashPlan_writes _).mono fun _ => UpdateWrite.keepsTable]
  · simp [Write.KeepsTable]

theorem factory_along (h : c.Partial) (r : Files) : AlongPartial c (factoryPlan x r c) := by
  have hrm := remove_along h
  have hcr := create_along (x := x) hrm.last
  exact Along_append.mpr ⟨hrm, Along_append.mpr ⟨hcr.1,
    keepsTable_along (goldenPlan_keepsTable r) hcr.1.last⟩⟩

/-- The check of LOG, when its repair finds RWFS in its place. -/
theorem checkLog_along (h : c.Partial) (h₂ : (c.table.entry .p2).isSome)
    (h₃ : 4 ≤ c.fsckStatus .p4 .ext3 → (c.table.entry .p3).isSome) :
    AlongPartial c (checkLogPlan x c) ∧
      (∀ p ≠ .p4, (checked x c).table.entry p = c.table.entry p) ∧
      ((checked x c).table.entry .p4).isSome := by
  unfold checked checkLogPlan
  have hfsck : Write.KeepsTable (.fsck .p4 .ext3) := trivial
  have hp := h.congr hfsck.apply (c.apply_capacity _)
  split_ifs with h₄
  · have hrm := hp.rm (p := .p4) (by decide)
    have he : ∀ p ≠ .p4, ((c.apply (.fsck .p4 .ext3)).apply (.rm .p4)).table.entry p =
        c.table.entry p := fun p hp => by
      rw [← hfsck.apply (c := c)]
      exact Table.remove_of_ne _ hp
    obtain ⟨hmk, hentry⟩ := mkLog hrm (by rw [he _ (by decide)]; exact h₂)
      (by rw [he _ (by decide)]; exact h₃ h₄)
    have hfmt : Each Write.KeepsTable [[formatted x .p4 .ext3 "LOG"]] := by
      simp [formatted, Write.KeepsTable]
    have htable := congrArg Table.entry (After_table (c := ((c.apply (.fsck .p4 .ext3)).apply
      (.rm .p4)).apply (.mkpart 300 none)) hfmt).1
    refine ⟨Along_cons.mpr ⟨h, Along_cons.mpr ⟨hp, along_mkpart hrm
      (keepsTable_along hfmt hmk)⟩⟩, fun p hp => ?_, ?_⟩
    · exact (congrFun (htable.trans hentry) p).trans ((Function.update_of_ne hp _ _).trans (he p hp))
    · exact Option.isSome_iff_exists.mpr
        ⟨_, (congrFun (htable.trans hentry) .p4).trans (Function.update_self _ _ _)⟩
  · have hone : Each Write.KeepsTable [[.fsck .p4 .ext3]] := by simp [Write.KeepsTable]
    have hu := c.usable_apply_fsck (Nat.lt_of_not_le h₄)
    exact ⟨keepsTable_along hone h, fun p _ => by rw [(After_table hone).1],
      mountable_isSome (Card.mountable_of_usable _ hu)⟩

/-- A write without an effect in front of others. -/
theorem along_quiet {v : Write} (hv : c.apply v = c) (h : AlongPartial c ws) :
    AlongPartial c ([v] :: ws) :=
  Along_cons.mpr ⟨h.first, by rw [List.foldl_cons, List.foldl_nil, hv]; exact h⟩

theorem reset_sync_along (h : c.Partial) (h₂ : (c.table.entry .p2).isSome) :
    AlongPartial c (resetPlan x ++ [[.sync]]) :=
  Along_append.mpr ⟨(reset_along h h₂).1, keepsTable_along (by simp [Write.KeepsTable])
    (reset_along (x := x) h h₂).1.last⟩

theorem update_along (h : c.Partial) (h₂ : (c.table.entry .p2).isSome) :
    AlongPartial c (updatePlan w x c) := by
  obtain ⟨vs, hvs, heq⟩ := updatePlan_writes (w := w) (x := x) c
  have hkeep := hvs.mono fun _ => UpdateWrite.keepsTable
  have halong := keepsTable_along hkeep h
  rcases heq with heq | heq <;> rw [heq]
  · exact halong
  · exact Along_append.mpr ⟨halong, reset_sync_along halong.last
      (by rw [(After_table hkeep).1]; exact h₂)⟩

theorem requests_along (h : c.Partial) (h₂ : (c.table.entry .p2).isSome) :
    AlongPartial c (requestsPlan w x c) := by
  unfold requestsPlan
  split
  · split_ifs
    · exact keepsTable_along (by simp [Write.KeepsTable]) h
    · exact Along_nil.mpr h
  · exact along_quiet rfl (update_along h h₂)
  · exact along_quiet rfl (along_quiet rfl (factory_along h _))
  · exact along_quiet rfl (along_quiet rfl (reset_sync_along h h₂))

end Plans

/-! ## Safe boots -/

variable (w c) in
/-- The boot does not find LATEST without RWFS, or it resets the card: by the kernel command line,
or for a request on a LOG that passes its check. -/
def Safe : Prop :=
  (c.table.entry .p2).isSome → c.table.entry .p3 = none →
    forced w c = true ∨
      c.fsckStatus .p4 .ext3 < 4 ∧ request w (c.apply (.fsck .p4 .ext3)) ≠ .none

theorem usable_format {p : Part} (kind : FsKind) (label : String)
    (h : (c.table.entry p).isSome) :
    (c.apply (.format p (some (fresh kind label)))).usable p kind = true := by
  simp [Card.apply, Card.usable, c.holds_write_self _ h, fresh]

theorem usable_after_format (ws : List (List Write)) {p : Part} {kind : FsKind} {label : String}
    (h : ((After Card.apply c (ws ++ [[formatted {} p kind label]])).table.entry p).isSome) :
    (After Card.apply c (ws ++ [[formatted {} p kind label]])).usable p kind = true := by
  have hend : After Card.apply c (ws ++ [[formatted {} p kind label]]) =
      (After Card.apply c ws).apply (.format p (some (fresh kind label))) := by
    rw [After_append]
    rfl
  rw [hend] at h ⊢
  refine usable_format kind label ?_
  simpa [Card.apply] using h

theorem checked_of_lt (h : c.fsckStatus .p4 .ext3 < 4) :
    checked x c = c.apply (.fsck .p4 .ext3) := by
  rw [checked, checkLogPlan, if_neg (Nat.not_le.mpr h)]
  rfl

/-- After its check LOG can be mounted, unless there is no place for it. -/
theorem checked_usable (h : ((checked {} c).table.entry .p4).isSome) :
    (checked {} c).usable .p4 .ext3 = true := by
  by_cases h₄ : 4 ≤ c.fsckStatus .p4 .ext3
  · have hplan : checkLogPlan {} c = [[.fsck .p4 .ext3], [.rm .p4], [.mkpart 300 none]] ++
        [[formatted {} .p4 .ext3 "LOG"]] := if_pos h₄
    rw [checked, hplan] at h ⊢
    exact usable_after_format _ h
  · have hlt := Nat.lt_of_not_le h₄
    rw [checked_of_lt hlt]
    exact c.usable_apply_fsck hlt

/-- **A safe boot keeps a part of the layout** wherever its main part is cut. -/
theorem mainPlan_along (h : c.Partial) (hsafe : Safe w c) : AlongPartial c (mainPlan w x c) := by
  unfold mainPlan
  split_ifs with h₂ hf
  · exact factory_along h _
  · have h₃ : 4 ≤ c.fsckStatus .p4 .ext3 → (c.table.entry .p3).isSome := fun h₄ => by
      by_contra hnone
      rcases hsafe h₂ (by simpa using hnone) with hforced | ⟨hlt, -⟩
      · exact hf hforced
      · exact absurd hlt (Nat.not_lt.mpr h₄)
    obtain ⟨hcheck, hentry, -⟩ := checkLog_along (x := x) h h₂ h₃
    exact Along_append.mpr ⟨hcheck, requests_along hcheck.last
      ((congrArg Option.isSome (hentry .p2 (by decide))).trans h₂)⟩
  · exact (create_along h).1

/-- A safe boot that reaches `mount_and_boot` has made the layout complete, and LOG usable. -/
theorem mainPlan_canonical (h : c.Partial) (hsafe : Safe w c) (hr : restarts w {} c = false) :
    (After Card.apply c (mainPlan w {} c)).Canonical ∧
      (After Card.apply c (mainPlan w {} c)).usable .p4 .ext3 = true := by
  cases h₂ : (c.table.entry .p2).isSome with
  | false =>
    have hplan : mainPlan w {} c = createPlan {} := by simp [mainPlan, h₂]
    have hend := (create_along (x := {}) h).2
    rw [hplan]
    exact ⟨hend, usable_after_format [[.mkpart 100 (some 200)], [.mkpart 200 (some 300)],
      [.mkpart 300 none], [formatted {} .p2 .vfat "LATEST"], [formatted {} .p3 .ext3 "RWFS"]]
      (Option.isSome_iff_exists.mpr ⟨_, hend.log⟩)⟩
  | true =>
    obtain ⟨hf, hreq⟩ : forced w c = false ∧ request w (checked {} c) = .none := by
      simpa [restarts, h₂] using hr
    have h₃ : (c.table.entry .p3).isSome := by
      by_contra hnone
      rcases hsafe h₂ (by simpa using hnone) with hforced | ⟨hlt, hne⟩
      · rw [hf] at hforced
        cases hforced
      · rw [checked_of_lt hlt] at hreq
        exact hne hreq
    obtain ⟨hcheck, hentry, h₄⟩ := checkLog_along (x := {}) h h₂ fun _ => h₃
    have hplan : After Card.apply c (mainPlan w {} c) = checked {} c := by
      rw [mainPlan, if_pos h₂, hf, if_neg (by simp), After_append]
      exact After_requestsPlan hreq
    rw [hplan]
    refine ⟨hcheck.last.canonical ?_ ?_ h₄, checked_usable h₄⟩
    · exact (congrArg Option.isSome (hentry .p2 (by decide))).trans h₂
    · exact (congrArg Option.isSome (hentry .p3 (by decide))).trans h₃

/-- The repair of LOG without RWFS gives the new partition the number of RWFS. -/
theorem checked_entry (h : c.Partial) (h₂ : (c.table.entry .p2).isSome)
    (h₃ : c.table.entry .p3 = none) (h₄ : 4 ≤ c.fsckStatus .p4 .ext3) :
    (checked {} c).table.entry .p3 = some c.logExtent ∧
      (checked {} c).table.entry .p4 = none := by
  obtain ⟨g, hg, -⟩ := h.golden
  have hfsck : Write.KeepsTable (.fsck .p4 .ext3) := trivial
  have hfmt : Each Write.KeepsTable [[formatted {} .p4 .ext3 "LOG"]] := by
    simp [formatted, Write.KeepsTable]
  have hplan : checked {} c = After Card.apply (((c.apply (.fsck .p4 .ext3)).apply (.rm .p4)).apply
      (.mkpart 300 none)) [[formatted {} .p4 .ext3 "LOG"]] := by
    rw [checked, checkLogPlan, if_pos h₄]
    rfl
  have hrm := (h.congr hfsck.apply (c.apply_capacity _)).rm (p := .p4) (by decide)
  have hentry : ((c.apply (.fsck .p4 .ext3)).apply (.rm .p4)).table.entry =
      Function.update c.table.entry .p4 none := by rw [← hfsck.apply (c := c)]; rfl
  have hlog : ((c.apply (.fsck .p4 .ext3)).apply (.rm .p4)).logExtent = c.logExtent := by
    rw [Card.logExtent, Card.apply_capacity, Card.apply_capacity, Card.logExtent]
  generalize (c.apply (.fsck .p4 .ext3)).apply (.rm .p4) = d at hplan hrm hentry hlog
  have hfree : d.table.firstFree Part.numbers = some .p3 :=
    Card.firstFree_of_before (by simp [hentry, Part.numbers, List.takeWhile, hg, h₂])
      (by simp [hentry, h₃])
  have hmk : (d.apply (.mkpart 300 none)).table.entry =
      Function.update d.table.entry .p3 (some c.logExtent) := by
    rw [Card.apply, Card.extent_log, hlog]
    exact Table.insert_of_fits hfree (hlog ▸ hrm.fits (p := .p4) rfl (by simp [hentry]))
  rw [hplan, (After_table hfmt).1, hmk, hentry]
  exact ⟨Function.update_self _ _ _, rfl⟩

/-! ## Runs -/

/-- One turn in a card's life: its files change in some way that leaves the table alone, or a boot
with property `P` runs, to its end or up to a cut. -/
inductive Turn (P : World → Card → Prop) (c : Card) : Card → Prop
  | used {c' : Card} : c'.table = c.table → c'.capacity = c.capacity → Turn P c c'
  | boot {w : World} {c' : Card} : P w c → IsCut w {} c c' → Turn P c c'

/-- A card at the beginning of its life. -/
def Card.Initial (c : Card) : Prop := c.Canonical ∨ c.GoldenOnly

/-- In every run whose boots satisfy `P`, the boots that hand over leave the canonical layout, with
RWFS and LOG ready to be mounted. -/
def KeepsLayout (P : World → Card → Prop) : Prop :=
  ∀ c₀ c w c', Card.Initial c₀ → Relation.ReflTransGen (Turn P) c₀ c → P w c →
    HandsOver w {} c c' → c'.Canonical ∧ c'.usable .p3 .ext3 = true ∧ c'.usable .p4 .ext3 = true

theorem Card.Initial.toPartial (h : c.Initial) : c.Partial :=
  h.elim Card.Canonical.toPartial Card.GoldenOnly.toPartial

theorem OnlyRwfs.toPartial (h : OnlyRwfs c c') (hc : c.Partial) : c'.Partial :=
  hc.congr h.table h.capacity

theorem OnlyRwfs.canonical (h : OnlyRwfs c c') (hc : c.Canonical) : c'.Canonical :=
  (h.toPartial hc.toPartial).canonical (by simp [h.table, hc.latest]) (by simp [h.table, hc.rwfs])
    (by simp [h.table, hc.log])

/-- A safe boot keeps a part of the layout, cut or not. -/
theorem IsCut.toPartial (hcut : IsCut w {} c c') (h : c.Partial) (hsafe : Safe w c) :
    c'.Partial := by
  have halong := mainPlan_along (x := {}) h hsafe
  rcases hcut.cases with ⟨ws, hws, rfl⟩ | ⟨-, hrwfs⟩
  · exact halong ws hws
  · exact hrwfs.toPartial halong.last

/-- **A safe boot that hands over leaves the canonical layout.** -/
theorem HandsOver.canonical (hover : HandsOver w {} c c') (h : c.Partial) (hsafe : Safe w c) :
    c'.Canonical ∧ c'.usable .p3 .ext3 = true ∧ c'.usable .p4 .ext3 = true := by
  obtain ⟨hcan, hlog⟩ := mainPlan_canonical h hsafe hover.restarts
  have hc' := hover.onlyRwfs.canonical hcan
  refine ⟨hc', hover.rwfs rfl (by simp [hc'.rwfs]), ?_⟩
  rw [Card.usable, hover.onlyRwfs.log]
  exact hlog

/-- A boot that is not safe hands over without the canonical layout. -/
theorem exists_not_canonical (h : c.Partial) (hsafe : ¬ Safe w c) :
    ∃ c', HandsOver w {} c c' ∧ ¬ c'.Canonical := by
  simp only [Safe, Classical.not_imp, not_or, not_and, Bool.not_eq_true, not_not] at hsafe
  obtain ⟨h₂, h₃, hf, hreq⟩ := hsafe
  have hbad : request w (checked {} c) = .none ∧
      (checked {} c).table.entry .p3 ≠ some Card.rwfsExtent := by
    by_cases h₄ : 4 ≤ c.fsckStatus .p4 .ext3
    · obtain ⟨he₃, he₄⟩ := checked_entry h h₂ h₃ h₄
      have hm : (checked {} c).mountable .p4 ≠ true := fun hm => by
        have hsome := mountable_isSome hm
        rw [he₄] at hsome
        cases hsome
      refine ⟨(request_none_iff w _).mpr fun hm' => absurd hm' hm, ?_⟩
      rw [he₃]
      exact fun he => absurd (congrArg Extent.start (Option.some.inj he))
        (by simp [Card.logExtent, Card.rwfsExtent, MB])
    · have hlt := Nat.lt_of_not_le h₄
      have hfsck : Write.KeepsTable (.fsck .p4 .ext3) := trivial
      rw [checked_of_lt hlt, hfsck.apply, h₃]
      exact ⟨hreq hlt, by simp⟩
  have hr : restarts w {} c = false := by simp [restarts, hf, hbad.1]
  obtain ⟨c', hover⟩ := exists_handsOver hr
  have hplan : After Card.apply c (mainPlan w {} c) = checked {} c := by
    rw [mainPlan, if_pos h₂, hf, if_neg (by simp), After_append]
    exact After_requestsPlan hbad.1
  have htable := hover.onlyRwfs.table
  rw [hplan] at htable
  exact ⟨c', hover, fun hc => hbad.2 (htable ▸ hc.rwfs)⟩

variable {P : World → Card → Prop} {c₀ : Card}

/-- A turn keeps a part of the layout, when its boot is safe. -/
theorem Turn.toPartial (hturn : Turn P c c') (hsafe : ∀ w, P w c → Safe w c) (h : c.Partial) :
    c'.Partial := by
  cases hturn with
  | used ht hc => exact h.congr ht hc
  | boot hP hcut => exact hcut.toPartial h (hsafe _ hP)

/-- A run keeps a part of the layout, when its boots are safe. -/
theorem run_toPartial (h₀ : c₀.Initial) (hrun : Relation.ReflTransGen (Turn P) c₀ c)
    (hsafe : ∀ d w, Relation.ReflTransGen (Turn P) c₀ d → d.Partial → P w d → Safe w d) :
    c.Partial := by
  induction hrun with
  | refl => exact h₀.toPartial
  | tail hd hturn ih => exact hturn.toPartial (fun w hP => hsafe _ w hd ih hP) ih

/-- **The layout is kept in exactly those runs whose boots are safe.** -/
theorem keepsLayout_iff (P : World → Card → Prop) : KeepsLayout P ↔
    ∀ c₀ c w, Card.Initial c₀ → Relation.ReflTransGen (Turn P) c₀ c → P w c → Safe w c := by
  constructor
  · intro hkeeps c₀ c w h₀ hrun hP
    have hsafe : ∀ d v, Relation.ReflTransGen (Turn P) c₀ d → d.Partial → P v d → Safe v d := by
      intro d v hd hpart hPd
      by_contra hunsafe
      obtain ⟨c', hover, hnot⟩ := exists_not_canonical hpart hunsafe
      exact hnot (hkeeps c₀ d v c' h₀ hd hPd hover).1
    exact hsafe c w hrun (run_toPartial h₀ hrun hsafe) hP
  · intro hsafe c₀ c w c' h₀ hrun hP hover
    have hpart := run_toPartial h₀ hrun fun d v hd _ hPd => hsafe c₀ d v h₀ hd hPd
    exact hover.canonical hpart (hsafe c₀ c w h₀ hrun hP)

/-- A card with GOLDEN only. -/
def Sample.blank : Card where
  table :=
    { entry := fun
        | .p1 => some Sample.golden
        | _ => none
      proper := by
        rintro (_ | _ | _ | _) e h <;> simp only [Option.some.injEq, reduceCtorEq] at h
        subst h
        decide
      apart := by
        rintro (_ | _ | _ | _) (_ | _ | _ | _) e f hne he hf <;>
          simp only [reduceCtorEq, ne_eq, not_true_eq_false] at hne he hf }
  regions := fun e => if e = Sample.golden then some (fresh .vfat "GOLDEN") else none
  loader := []
  capacity := 1000 * MB
  roomy := Sample.roomy_thousand

/-- The first boot of a card is cut after LATEST is made; the next boot gives LOG the number of
RWFS. -/
theorem not_keepsLayout : ¬ KeepsLayout fun _ _ => True := by
  intro h
  have hstart : Sample.blank.Initial := Or.inr ⟨⟨Sample.golden, rfl, by decide⟩, rfl, rfl, rfl⟩
  have hbegin : [[.mkpart 100 (some 200)]] <+: mainPlan Sample.world {} Sample.blank := ⟨_, rfl⟩
  have hcut := isCut_of_prefix hbegin
  have hpart := (mkLatest hstart.toPartial).1
  have hunsafe : ¬ Safe Sample.world (Sample.blank.apply (.mkpart 100 (some 200))) := by
    unfold Safe
    decide
  obtain ⟨c', hover, hnot⟩ := exists_not_canonical hpart hunsafe
  exact hnot (h _ _ _ _ hstart (.single (.boot trivial hcut)) trivial hover).1

end Meta3dr
