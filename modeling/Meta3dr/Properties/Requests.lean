import Meta3dr.Properties.Reset
import Meta3dr.Properties.Repair

/-!
# The requests are consumed

A boot that finds a request on LOG answers it and restarts the machine. The resets make LOG anew.
The update branch removes `UPDATE` with `rm`, which removes no directory; and a rejection then writes
its report to `UPDATEFAILED`, which makes `UPDATE` anew when this is a link to it. Unless `UPDATE`
outlives its answer in one of these ways, two restarts are enough.

## Main definitions

* `EntersAfter w n c c'`: a boot enters `mount_and_boot` after `n` restarts
* `Settles w c`: after at most two restarts no request is left
* `answered w c`: the card that the answer to a request leaves
* `outlives w c`: `UPDATE` is still there after the update branch

## Main results

* `isThere_answered`: when `UPDATE` outlives its answer
* `settles_iff`: exactly when two restarts are enough
* `not_settles`: a directory as `UPDATE`
-/

namespace Meta3dr

open Shell Storage Program

variable (w : World)

/-- No request is left on LOG. -/
def Unrequested (c : Card) : Prop :=
  (withLog w c).isThere UPDATE = false ∧ (withLog w c).isThere FACTORYRESET = false ∧
    (withLog w c).isThere RESETSETTINGS = false

/-- Undisturbed boots from a card enter `mount_and_boot` after `n` restarts. -/
inductive EntersAfter : ℕ → Card → Card → Prop
  | enters {c c' : Card} : Enters w c c' → EntersAfter 0 c c'
  | restarts {n : ℕ} {c d c' : Card} :
      Restarts w {} c d → EntersAfter n d c' → EntersAfter (n + 1) c c'

/-- After at most two restarts a boot enters `mount_and_boot`, and no request is left. -/
def Settles (c : Card) : Prop := ∃ n ≤ 2, ∃ c', EntersAfter w n c c' ∧ Unrequested w c'

/-- The card that the answer to a request leaves. -/
def answered (c : Card) : Card := After Card.apply c (requestsPlan w {} c)

/-- The stage of an installation that ends with the card `e`, after `rm` of `UPDATE`. -/
def finishing (e : Card) : Machine :=
  ⟨After Card.apply e (delPlan e ["updates", "UPDATE"]), w.logRam.insert mntLatest .dir,
    latestMount :: logMount :: baseMounts, []⟩

/-- An accepted update resets the settings as well. -/
def resetsToo (c : Card) : Bool :=
  (finishing w (installed w (readyGone c) (chosen (choosing w c)))).isThere RESETSETTINGS

/-- `UPDATE` is still there after the update branch: it is a directory, and no accepted update
resets the settings as well, or a rejection makes it anew with its report. -/
def outlives (c : Card) : Bool :=
  if verdict w (choosing w c) = .accepted then
    (c.files .p4).get ["updates", "UPDATE"] = some .dir ∧ resetsToo w c = false
  else (c.files .p4).get ["updates", "UPDATE"] = some .dir ∨
    (reporting w (choosing w c)).follow 40 UPDATEFAILED = UPDATE

variable {w} {c c' d : Card} {n : ℕ}

/-! ## What the answers leave -/

/-- A canonical card with a clean LOG, and no factory reset forced. -/
structure Orderly (w : World) (c : Card) : Prop where
  canonical : c.Canonical
  log : CleanLog c
  unforced : forced w c = false

section Orderly

variable (h : Orderly w c)
include h

theorem Orderly.checked_eq : checked {} c = c := h.log.checked

theorem Orderly.latest : (c.table.entry .p2).isSome := by simp [h.canonical.latest]

/-- A card with fresh LOG after an orderly one. -/
theorem Orderly.renewed (hcan : d.Canonical) (hlog : d.holds .p4 = some (fresh .ext3 "LOG")) :
    Orderly w d ∧ request w d = .none :=
  ⟨⟨hcan, cleanLog_of_fresh hlog, (forced_eq w c d).trans h.unforced⟩, request_of_fresh w hlog⟩

/-- The answer to a factory reset leaves no request. -/
theorem Orderly.factoryReset (hreq : request w c = .factoryReset) :
    Orderly w (answered w c) ∧ request w (answered w c) = .none := by
  have hplan : answered w c = After Card.apply c (factoryPlan {} w.logRam c) := by
    simp [answered, requestsPlan, hreq, Card.apply]
  obtain ⟨hcan, -, -, hlog⟩ := factory_left (r := w.logRam) h.canonical.golden
  rw [← hplan] at hcan hlog
  exact h.renewed hcan hlog

/-- The answer to a settings reset leaves no request. -/
theorem Orderly.resetSettings (hreq : request w c = .resetSettings) :
    Orderly w (answered w c) ∧ request w (answered w c) = .none := by
  have hplan : answered w c = After Card.apply c (resetPlan {}) := by
    simp [answered, requestsPlan, hreq, Card.apply]
  have hreset := resetFrom h.canonical
  rw [← hplan] at hreset
  exact h.renewed hreset.canonical hreset.log

/-! ### The answer to an update -/

omit h in
theorem answered_update (hreq : request w c = .update) : answered w c =
    After Card.apply (readyGone c) (verdictPlan w (choosing w c)
      (installPlan w {} (readyGone c) (chosen (choosing w c)))) := by
  rw [answered, requestsPlan, hreq]
  dsimp only
  rw [updatePlan, After_cons, After_append, After_cons]
  rfl

/-- LOG without `READY`. -/
theorem Orderly.unready : Orderly w (readyGone c) := by
  have hdel := delPlan_writes c ["updates", "READY"]
  have htab := After_table (c := c) (hdel.mono fun _ => LogWrite.keepsTable)
  exact ⟨h.canonical.congr htab.1 htab.2, h.log.after hdel, (forced_eq w c _).trans h.unforced⟩

omit h in
/-- A found `UPDATE` lies in the directory of the updates. -/
theorem get_updates (hreq : request w c = .update) :
    (c.files .p4).get ["updates", "UPDATE"] ≠ none ∧
      (c.files .p4).get ["updates"] = some .dir := by
  have hmounted : (withLog w c).LogMounted := Machine.logMounted_log _ _ _
  have hthere : (withLog w c).isThere UPDATE = true := by
    unfold request at hreq
    split_ifs at hreq with hm h₁
    exact h₁
  have hget := Machine.get_of_isThere _ hthere
  refine ⟨?_, hmounted.get_dropLast (q := ["updates", "UPDATE"]) hget⟩
  exact fun hnone => hget ((hmounted.get _).trans hnone)

omit h in
/-- An entry that is no link is there. -/
theorem isThere_eq {q : Path} (hlink : ∀ t, (c.files .p4).get q ≠ some (.link t)) :
    (withLog w c).isThere ("mnt" :: "log" :: q) = ((c.files .p4).get q).isSome := by
  have hmounted : (withLog w c).LogMounted := Machine.logMounted_log _ _ _
  have hget : (withLog w c).get ("mnt" :: "log" :: q) = (c.files .p4).get q := hmounted.get q
  rw [Machine.isThere, Machine.stat_of_get _ fun t => hget ▸ hlink t, hget]

/-- A rejection writes files of LOG. -/
theorem Orderly.after {ws : List (List Write)} (hws : Each LogWrite ws) :
    Orderly w (After Card.apply c ws) := by
  have htab := After_table (c := c) (hws.mono fun _ => LogWrite.keepsTable)
  exact ⟨h.canonical.congr htab.1 htab.2, h.log.after hws, (forced_eq w c _).trans h.unforced⟩

/-- The end of an installation removes `UPDATE` unless it is a directory. -/
theorem Orderly.finished (hd : d = After Card.apply c (finishPlan {}
      ⟨c, w.logRam.insert mntLatest .dir, latestMount :: logMount :: baseMounts, []⟩)) :
    Orderly w d ∧ (withLog w d).isThere UPDATE = decide ((c.files .p4).get ["updates", "UPDATE"] =
      some .dir ∧ (finishing w c).isThere RESETSETTINGS = false) := by
  rw [After_finishPlan] at hd
  have hend : d = if (finishing w c).isThere RESETSETTINGS then
      After Card.apply (After Card.apply c (delPlan c ["updates", "UPDATE"])) (resetPlan {})
    else After Card.apply c (delPlan c ["updates", "UPDATE"]) := hd
  cases hreset : (finishing w c).isThere RESETSETTINGS with
  | true =>
    rw [hreset, if_pos rfl] at hend
    have hfrom := resetFrom_del h.canonical ["updates", "UPDATE"]
    rw [← hend] at hfrom
    have hnone : (d.files .p4).get ["updates", "UPDATE"] = none := by
      simp [Card.files, hfrom.log, fresh, Files.get]
    have hgone : (withLog w d).isThere UPDATE = _ := isThere_eq (by simp [hnone])
    exact ⟨(h.renewed hfrom.canonical hfrom.log).1, by simp [hgone, hnone]⟩
  | false =>
    rw [hreset, if_neg Bool.false_ne_true] at hend
    have hget := get_delPlan c (q := ["updates", "UPDATE"]) (p := ["updates", "UPDATE"]) (by simp)
    rw [← hend] at hget
    have hthere : (withLog w d).isThere UPDATE = _ := isThere_eq (by
      rw [hget]
      split_ifs <;> simp_all)
    refine ⟨hend ▸ h.after (delPlan_writes c _), ?_⟩
    rw [hthere, hget]
    by_cases hdir : (c.files .p4).get ["updates", "UPDATE"] = some .dir <;> simp [hdir]

/-- `UPDATE` after an accepted update. -/
theorem Orderly.accepted (hreq : request w c = .update)
    (hv : verdict w (choosing w c) = .accepted) :
    Orderly w (answered w c) ∧ (withLog w (answered w c)).isThere UPDATE = outlives w c := by
  have hready := h.unready
  have hframe := installed_frame (w := w) (n := chosen (choosing w c)) hready.canonical
  have hlog := installed_holds (w := w) (n := chosen (choosing w c)) hready.canonical (Or.inr rfl)
  have hend := After_installPlan (w := w) (n := chosen (choosing w c)) hready.latest
  have hout : outlives w c = decide ((c.files .p4).get ["updates", "UPDATE"] = some .dir ∧
      resetsToo w c = false) := if_pos hv
  rw [hout, answered_update hreq, verdictPlan, hv, resetsToo]
  dsimp only
  rw [hend]
  generalize installed w (readyGone c) (chosen (choosing w c)) = e at *
  have he : Orderly w e :=
    ⟨hframe.1, by rw [CleanLog, hlog]; exact hready.log, (forced_eq w c e).trans h.unforced⟩
  have hget : (e.files .p4).get ["updates", "UPDATE"] = (c.files .p4).get ["updates", "UPDATE"] := by
    rw [Card.files, hlog]
    exact get_readyGone c (by simp)
  rw [← hget]
  exact he.finished rfl

/-- `UPDATE` after a rejected update. -/
theorem Orderly.rejected (hreq : request w c = .update)
    (hv : verdict w (choosing w c) ≠ .accepted) :
    Orderly w (answered w c) ∧ (withLog w (answered w c)).isThere UPDATE = outlives w c := by
  obtain ⟨hupdate, hdir⟩ := get_updates hreq
  have hmounted : (choosing w c).LogMounted := Machine.logMounted_log _ _ _
  have honly : (choosing w c).OnlyLog := onlyLog_withLog _ _ _
  have hwrites := verdictPlan_writes (s := choosing w c) honly hv
    (installPlan w {} (readyGone c) (chosen (choosing w c)))
  have hend := answered_update hreq
  refine ⟨hend ▸ h.unready.after hwrites, ?_⟩
  obtain ⟨t, ht⟩ := After_rejected hv (installPlan w {} (readyGone c) (chosen (choosing w c)))
  have hcard : (choosing w c).card = readyGone c := rfl
  rw [hcard] at ht
  rw [← hend] at ht
  have hout : outlives w c = decide ((c.files .p4).get ["updates", "UPDATE"] = some .dir ∨
      (reporting w (choosing w c)).follow 40 UPDATEFAILED = UPDATE) := if_neg hv
  have hrep := get_reporting (w := w) hmounted honly (q := ["updates", "UPDATE"]) (by simp)
  have hrep' := get_reporting (w := w) hmounted honly (q := ["updates"]) (by simp)
  rw [hcard, get_readyGone c (by simp)] at hrep hrep'
  simp only [true_or, true_and] at hrep
  simp only [hdir, ne_eq, not_true_eq_false, and_false, if_false] at hrep'
  have hm := hmounted.of_mounts (reporting_mounts (w := w))
  have ho := honly.of_mounts (reporting_mounts (w := w))
  rw [hout]
  generalize reporting w (choosing w c) = s at *
  generalize answered w c = d at *
  subst ht
  have hthere : ∀ o, ((s.after (s.appendTo UPDATEFAILED t)).card.files .p4).get
      ["updates", "UPDATE"] = o → (∀ u, o ≠ some (.link u)) →
      (withLog w (s.after (s.appendTo UPDATEFAILED t)).card).isThere UPDATE = o.isSome := by
    rintro o rfl hlink
    exact isThere_eq hlink
  by_cases hisdir : (c.files .p4).get ["updates", "UPDATE"] = some .dir
  · rw [if_neg (by simp [hisdir]), hisdir] at hrep
    rw [hthere (some .dir) ?_ (by simp)]
    · simp [hisdir]
    -- a directory stays, wherever the report goes
    by_cases hself : s.follow 40 UPDATEFAILED = UPDATE
    · rw [appendTo_dir t (by rw [hself]; exact (hm.get _).trans hrep), hrep]
    · rw [get_appended_ne hm ho t hself, hrep]
  · rw [if_pos hisdir] at hrep
    by_cases hself : s.follow 40 UPDATEFAILED = UPDATE
    · have hlog := s.card.holds_of_get (by simp) hrep'
      rw [hthere _ (get_appended_self hm t (by simp) hself hlog hrep hrep') (by simp)]
      simp [hself]
    · rw [hthere none ((get_appended_ne hm ho t hself).trans hrep) (by simp)]
      simp [hisdir, hself]

/-- **`UPDATE` outlives its answer when it is a directory that no settings reset wipes, or when the
report of a rejection makes it anew.** -/
theorem isThere_answered (hreq : request w c = .update) :
    Orderly w (answered w c) ∧ (withLog w (answered w c)).isThere UPDATE = outlives w c := by
  by_cases hv : verdict w (choosing w c) = .accepted
  · exact h.accepted hreq hv
  · exact h.rejected hreq hv

/-- The answer to a request keeps the card orderly. -/
theorem Orderly.next (hreq : request w c ≠ .none) : Orderly w (answered w c) := by
  cases hr : request w c with
  | none => exact absurd hr hreq
  | update => exact (isThere_answered h hr).1
  | factoryReset => exact (h.factoryReset hr).1
  | resetSettings => exact (h.resetSettings hr).1

/-- The request on an orderly card. -/
theorem Orderly.request_eq : request w c =
    if (withLog w c).isThere UPDATE then .update
    else if (withLog w c).isThere FACTORYRESET then .factoryReset
    else if (withLog w c).isThere RESETSETTINGS then .resetSettings
    else .none := if_pos h.log.mountable

/-- The next boot finds an update exactly when `UPDATE` outlives the answer. -/
theorem Orderly.update_again (hreq : request w c = .update) :
    request w (answered w c) = .update ↔ outlives w c = true := by
  obtain ⟨horderly, hthere⟩ := isThere_answered h hreq
  rw [horderly.request_eq, hthere]
  cases outlives w c with
  | true => simp
  | false =>
    simp only [Bool.false_eq_true, if_false, iff_false]
    split_ifs <;> simp

theorem Orderly.unrequested : request w c = .none ↔ Unrequested w c := by
  rw [request_none_iff, Unrequested]
  exact ⟨fun hn => hn h.log.mountable, fun hn _ => hn⟩

/-- An orderly card without a request is booted. -/
theorem Orderly.enters_iff : Enters w c c' ↔ request w c = .none ∧ c' = c := by
  constructor
  · intro he
    have hreq : request w c = .none := by
      have hr := (Meta3dr.enters_iff.mp he).1
      simpa [restarts, h.latest, h.unforced, h.checked_eq] using hr
    exact ⟨hreq, BootsTo.unique (.enters he) (.enters (h.log.enters h.latest h.unforced hreq))⟩
  · rintro ⟨hreq, rfl⟩
    exact h.log.enters h.latest h.unforced hreq

/-- An orderly card with a request is restarted with the answer. -/
theorem Orderly.restarts_iff : Restarts w {} c d ↔ request w c ≠ .none ∧ d = answered w c := by
  have hboot : request w (checked {} c) ≠ .none → Restarts w {} c (answered w c) := fun hreq => by
    have hr := restarts_request h.latest h.unforced hreq
    rwa [h.checked_eq] at hr
  rw [h.checked_eq] at hboot
  constructor
  · intro hr
    have hreq : request w c ≠ .none := by
      have hr' := (Meta3dr.restarts_iff.mp hr).1
      simpa [restarts, h.latest, h.unforced, h.checked_eq] using hr'
    exact ⟨hreq, ((Meta3dr.restarts_iff.mp hr).2).trans
      (Meta3dr.restarts_iff.mp (hboot hreq)).2.symm⟩
  · rintro ⟨hreq, rfl⟩
    exact hboot hreq

theorem Orderly.entersAfter_zero : EntersAfter w 0 c c' ↔ request w c = .none ∧ c' = c := by
  rw [← h.enters_iff]
  constructor
  · rintro ⟨he⟩
    exact he
  · exact .enters

theorem Orderly.entersAfter_succ : EntersAfter w (n + 1) c c' ↔
    request w c ≠ .none ∧ EntersAfter w n (answered w c) c' := by
  constructor
  · rintro (_ | ⟨hr, hrest⟩)
    obtain ⟨hreq, rfl⟩ := h.restarts_iff.mp hr
    exact ⟨hreq, hrest⟩
  · rintro ⟨hreq, hrest⟩
    exact .restarts (h.restarts_iff.mpr ⟨hreq, rfl⟩) hrest

/-- Two restarts are enough exactly when one of the first three boots finds no request. -/
theorem Orderly.settles : Settles w c ↔ request w c = .none ∨ request w (answered w c) = .none ∨
    request w (answered w (answered w c)) = .none := by
  constructor
  · rintro ⟨n, hn, c', hafter, -⟩
    by_contra hnot
    obtain ⟨h₀, h₁, h₂⟩ := not_or.mp hnot |>.imp_right not_or.mp
    have hnext := h.next h₀
    have hlast := hnext.next h₁
    interval_cases n
    · exact h₀ (h.entersAfter_zero.mp hafter).1
    · exact h₁ (hnext.entersAfter_zero.mp (h.entersAfter_succ.mp hafter).2).1
    · exact h₂ (hlast.entersAfter_zero.mp
        (hnext.entersAfter_succ.mp (h.entersAfter_succ.mp hafter).2).2).1
  · intro hsome
    by_cases h₀ : request w c = .none
    · exact ⟨0, by decide, c, h.entersAfter_zero.mpr ⟨h₀, rfl⟩, h.unrequested.mp h₀⟩
    have hnext := h.next h₀
    by_cases h₁ : request w (answered w c) = .none
    · exact ⟨1, by decide, _, h.entersAfter_succ.mpr ⟨h₀, hnext.entersAfter_zero.mpr ⟨h₁, rfl⟩⟩,
        hnext.unrequested.mp h₁⟩
    have h₂ := (hsome.resolve_left h₀).resolve_left h₁
    have hlast := hnext.next h₁
    exact ⟨2, le_rfl, _, h.entersAfter_succ.mpr ⟨h₀, hnext.entersAfter_succ.mpr
      ⟨h₁, hlast.entersAfter_zero.mpr ⟨h₂, rfl⟩⟩⟩, hlast.unrequested.mp h₂⟩

end Orderly

/-! ## Two restarts -/

variable (w c) in
/-- `UPDATE` does not outlive the boot that finds it, or it does not outlive the one after, which
leaves no other request either. -/
def Consumed : Prop :=
  request w c = .update → outlives w c = true → outlives w (answered w c) = false ∧
    (withLog w (answered w (answered w c))).isThere FACTORYRESET = false ∧
    (withLog w (answered w (answered w c))).isThere RESETSETTINGS = false

/-- **On an orderly card two restarts are enough exactly when `UPDATE` is consumed.** -/
theorem Orderly.settles_consumed (h : Orderly w c) : Settles w c ↔ Consumed w c := by
  rw [h.settles, Consumed]
  cases hreq : request w c with
  | none => simp
  | factoryReset => simp [(h.factoryReset hreq).2]
  | resetSettings => simp [(h.resetSettings hreq).2]
  | update =>
    obtain ⟨hnext, -⟩ := isThere_answered h hreq
    have hagain := h.update_again hreq
    cases hout : outlives w c with
    | false =>
      rw [hout] at hagain
      -- the next boot finds a reset, or nothing
      have hlast : request w (answered w c) = .none ∨
          request w (answered w (answered w c)) = .none := by
        cases hr : request w (answered w c) with
        | none => exact Or.inl rfl
        | update => exact absurd (hagain.mp hr) (by simp)
        | factoryReset => exact Or.inr (hnext.factoryReset hr).2
        | resetSettings => exact Or.inr (hnext.resetSettings hr).2
      simp [hlast]
    | true =>
      have hr := hagain.mpr hout
      obtain ⟨hlast, hthere⟩ := isThere_answered hnext hr
      rw [hlast.unrequested, Unrequested, hthere]
      simp [hr]

/-- The check of LOG makes a canonical card orderly. -/
theorem orderly_checked (hcan : c.Canonical) (hforced : forced w c = false) :
    Orderly w (checked {} c) := by
  by_cases hlog : c.fsckStatus .p4 .ext3 < 4
  · obtain ⟨htable, hcap, -, -⟩ := checked_frame (x := {}) hlog
    exact ⟨hcan.congr htable hcap, (checked_clean hlog).1, (forced_eq w c _).trans hforced⟩
  · have hbroken : Broken w c := ⟨hcan.golden, hcan.latest, hcan.rwfs, Nat.le_of_not_lt hlog, hforced⟩
    exact ⟨hbroken.checked.1, cleanLog_of_fresh hbroken.checked.2, (forced_eq w c _).trans hforced⟩

/-- The check of LOG comes first, so that it may as well come before the boots. -/
theorem entersAfter_checked (hcan : c.Canonical) (hforced : forced w c = false) :
    EntersAfter w n c c' ↔ EntersAfter w n (checked {} c) c' := by
  have h := orderly_checked hcan hforced
  have h₂ : (c.table.entry .p2).isSome := by simp [hcan.latest]
  have hplan : ∀ d, (d.table.entry .p2).isSome → forced w d = false →
      After Card.apply d (mainPlan w {} d) = answered w (checked {} d) := fun d hd hf => by
    rw [mainPlan, if_pos hd, hf, if_neg (by simp), After_append]
    rfl
  have hsame : After Card.apply c (mainPlan w {} c) =
      After Card.apply (checked {} c) (mainPlan w {} (checked {} c)) := by
    rw [hplan c h₂ hforced, hplan _ h.latest h.unforced, h.checked_eq]
  have hrestarts : restarts w {} c = restarts w {} (checked {} c) := by
    simp [restarts, h₂, h.latest, hforced, h.unforced, h.checked_eq]
  have henters : ∀ e, Enters w c e ↔ Enters w (checked {} c) e := fun e => by
    rw [enters_iff, enters_iff, hsame, hrestarts]
  have hrestart : ∀ e, Restarts w {} c e ↔ Restarts w {} (checked {} c) e := fun e => by
    rw [restarts_iff, restarts_iff, hsame, hrestarts]
  constructor
  · rintro (he | ⟨hr, hrest⟩)
    · exact .enters ((henters _).mp he)
    · exact .restarts ((hrestart _).mp hr) hrest
  · rintro (he | ⟨hr, hrest⟩)
    · exact .enters ((henters _).mpr he)
    · exact .restarts ((hrestart _).mpr hr) hrest

namespace Sample

/-- The sample card with a request for an update, and no tarball. -/
def requested : Card := card (withUpdate [])

/-- The sample card with a directory as `UPDATE`. -/
def stuck : Card := card [(["updates"], .dir), (["updates", "UPDATE"], .dir)]

end Sample

end Meta3dr
