import Meta3dr.Aufs.Union

/-!
# Changes of the upper tree

An entry of the union is changed in the upper branch: the entry itself, what lies below it, and its
whiteout. Temporary names, which stand behind two prefixes of whiteouts, change nothing that shows.

## Main definitions

* `Visible`, `vis`: the paths at which the union reads the upper tree, and the tree at these
* `ChangeAt`: two trees that differ at an entry and its whiteout only

## Main results

* `union_vis`, `at_vis`: the union depends on what is visible
* `ChangeAt.union_off`, `ChangeAt.upper`: a change at an entry leaves the other paths alone
* `union_copyup`: an entry copied up shows as before
* `ChangeAt.union_put`, `ChangeAt.union_remove`: an entry that is put or removed
-/

namespace Meta3dr.Aufs

open Shell

/-! ## What is visible -/

/-- A name that the union reads: one without the prefix, the whiteout of one, or the opaque
marker. -/
def Plain (n : String) : Prop :=
  hasWhPfx n = false ∨ n = diropqName ∨ ∃ m, hasWhPfx m = false ∧ n = whName m

/-- A path at which the union reads the upper branch. -/
def Visible (p : Path) : Prop := p = [] ∨ ∃ s n, p = s ++ [n] ∧ PathOk s ∧ Plain n

open Classical in
/-- The tree at the paths that are visible. -/
noncomputable def vis (u : Tree) : Tree := fun p => if Visible p then u p else none

section Vis

variable {u l : Tree} {s p : Path} {n : String} {bad : Set Path}

@[simp] theorem visible_nil : Visible [] := .inl rfl

@[simp] theorem visible_concat : Visible (s ++ [n]) ↔ PathOk s ∧ Plain n := by
  constructor
  · rintro (h | ⟨s', n', h, hs, hn⟩)
    · simp at h
    · obtain ⟨rfl, hlast⟩ := List.append_inj' h rfl
      obtain rfl := List.singleton_inj.mp hlast
      exact ⟨hs, hn⟩
  · exact fun h => .inr ⟨s, n, rfl, h⟩

theorem visible_of_pathOk (h : PathOk p) : Visible p := by
  rcases List.eq_nil_or_concat' p with rfl | ⟨s, n, rfl⟩
  · exact visible_nil
  · obtain ⟨hs, hn⟩ := pathOk_concat.mp h
    exact visible_concat.mpr ⟨hs, .inl hn.1⟩

theorem visible_whName (hs : PathOk s) (hn : hasWhPfx n = false) : Visible (s ++ [whName n]) :=
  visible_concat.mpr ⟨hs, .inr (.inr ⟨n, hn, rfl⟩)⟩

theorem visible_diropq (hs : PathOk s) : Visible (s ++ [diropqName]) :=
  visible_concat.mpr ⟨hs, .inr (.inl rfl)⟩

/-- A name behind two prefixes is not read, but for the opaque marker. -/
theorem not_plain_whName_whName (h : n ≠ ".opq") : ¬ Plain (whName (whName n)) := by
  rintro (hn | hn | ⟨m, hm, hn⟩)
  · simp at hn
  · exact h (whName_inj.mp (whName_inj.mp hn))
  · rw [← whName_inj.mp hn] at hm
    simp at hm

/-- Nothing below a name with the prefix is visible. -/
theorem not_visible_append (hn : hasWhPfx n = true) {r : Path} (hr : r ≠ []) :
    ¬ Visible (s ++ [n] ++ r) := by
  obtain ⟨t, m, rfl⟩ := (List.eq_nil_or_concat' r).resolve_left hr
  rw [← List.append_assoc, visible_concat]
  rintro ⟨hs, -⟩
  have hok := hs n (by simp)
  rw [hok.1] at hn
  cases hn

theorem vis_of (h : Visible p) : vis u p = u p := if_pos h

theorem vis_closed (hu : u.Closed) : (vis u).Closed := by
  refine ⟨by rw [vis_of visible_nil, hu.root], fun s n h => ?_⟩
  have hvis : Visible (s ++ [n]) := by
    by_contra hvis
    exact h (if_neg hvis)
  rw [vis_of hvis] at h
  rw [vis_of (visible_of_pathOk (visible_concat.mp hvis).1), hu.parent s n h]

theorem opens_vis (h : PathOk (s ++ [n])) : Opens (vis u) l s n ↔ Opens u l s n := by
  obtain ⟨hs, hn⟩ := pathOk_concat.mp h
  simp only [Opens, vis_of (visible_of_pathOk h), vis_of (visible_whName hs hn.1),
    vis_of (visible_diropq h)]

theorem through_vis (h : PathOk p) : Through (vis u) l p ↔ Through u l p := by
  have hok : ∀ s n, s ++ [n] <+: p → PathOk (s ++ [n]) := fun s n hle m hm => h m (hle.subset hm)
  exact forall_congr' fun s => forall_congr' fun n => forall_congr' fun hle =>
    opens_vis (hok s n hle)

theorem below_vis (h : PathOk p) : Below (vis u) l p ↔ Below u l p := by
  rcases List.eq_nil_or_concat' p with rfl | ⟨s, n, rfl⟩
  · simp
  · obtain ⟨hs, hn⟩ := pathOk_concat.mp h
    rw [below_concat, below_concat, through_vis hs, vis_of (visible_whName hs hn.1)]

open Classical in
/-- **The union depends on what is visible.** -/
theorem union_vis : union (vis u) l = union u l := by
  funext p
  by_cases h : PathOk p
  · simp only [union, h, if_true, vis_of (visible_of_pathOk h), below_vis h]
  · simp [union, h]

open Classical in
theorem lowPart_vis (h : PathOk p) : lowPart (vis u) l p = lowPart u l p := by
  simp only [lowPart, vis_of (visible_of_pathOk h), below_vis h]

theorem at_vis {d : Dentry} (hp : PathOk p) : d.At (vis u) l p ↔ d.At u l p := by
  have hvis := vis_of (u := u) (visible_of_pathOk hp)
  have hopq := vis_of (u := u) (visible_diropq hp)
  have hlast := vis_of (u := u) (visible_of_pathOk (p := p.dropLast) fun m hm =>
    hp m (List.mem_of_mem_dropLast hm))
  have hwh : ∀ s n, p = s ++ [n] → vis u (s ++ [whName n]) = u (s ++ [whName n]) := by
    rintro s n rfl
    obtain ⟨hs, hn⟩ := pathOk_concat.mp hp
    exact vis_of (visible_whName hs hn.1)
  constructor
  · rintro ⟨h₁, h₂, h₃, h₄, h₅⟩
    rw [hvis, lowPart_vis hp] at h₁ h₅
    rw [hvis, hopq] at h₄
    rw [hlast] at h₅
    exact ⟨h₁, fun s n hsn => hwh s n hsn ▸ h₂ s n hsn, h₃, h₄, h₅⟩
  · rintro ⟨h₁, h₂, h₃, h₄, h₅⟩
    rw [← hvis, ← lowPart_vis hp] at h₁ h₅
    rw [← hvis, ← hopq] at h₄
    rw [← hlast] at h₅
    exact ⟨h₁, fun s n hsn => (hwh s n hsn).symm ▸ h₂ s n hsn, h₃, h₄, h₅⟩

theorem upper_vis : UpperOff bad (vis u) ∧ u.Closed ↔ UpperOff bad u := by
  have hplain : ∀ {s n}, PathOk s → hasWhPfx n = false → vis u (s ++ [n]) = u (s ++ [n]) :=
    fun hs hn => vis_of (visible_concat.mpr ⟨hs, .inl hn⟩)
  have hdot : ∀ {n}, isDot n → hasWhPfx n = false := by
    rintro n (rfl | rfl | rfl) <;> decide
  constructor
  · rintro ⟨h, hu⟩
    refine ⟨hu, fun s n x hs hn hx => ?_, fun s n hs hn hbad hx => ?_, fun s x hs hx => ?_,
      fun s n hs hn hx => ?_, fun s n hs hn => ?_⟩
    · exact h.whiteout s n x hs hn (by rw [vis_of (visible_whName hs hn), hx])
    · rw [← hplain hs hn]
      exact h.apart s n hs hn hbad (by rwa [vis_of (visible_whName hs hn)])
    · exact h.marker s x hs (by rw [vis_of (visible_diropq hs), hx])
    · exact h.length s n hs hn (by rwa [hplain hs hn])
    · rw [← hplain hs (hdot hn), ← vis_of (u := u) (visible_whName hs (hdot hn))]
      exact h.dots s n hs hn
  · refine fun h => ⟨⟨vis_closed h.closed, fun s n x hs hn hx => ?_, fun s n hs hn hbad hx => ?_,
      fun s x hs hx => ?_, fun s n hs hn hx => ?_, fun s n hs hn => ?_⟩, h.closed⟩
    · exact h.whiteout s n x hs hn (by rwa [vis_of (visible_whName hs hn)] at hx)
    · rw [hplain hs hn]
      exact h.apart s n hs hn hbad (by rwa [vis_of (visible_whName hs hn)] at hx)
    · exact h.marker s x hs (by rwa [vis_of (visible_diropq hs)] at hx)
    · exact h.length s n hs hn (by rwa [hplain hs hn] at hx)
    · rw [hplain hs (hdot hn), vis_of (visible_whName hs (hdot hn))]
      exact h.dots s n hs hn

/-! ## Operations -/

theorem vis_update (h : Visible p) (v : Option Node) :
    vis (Function.update u p v) = Function.update (vis u) p v := by
  funext q
  by_cases hq : q = p
  · rw [hq, vis_of h, Function.update_self, Function.update_self]
  · simp only [vis, Function.update_of_ne hq]

theorem vis_update_hidden (h : ¬ Visible p) (v : Option Node) :
    vis (Function.update u p v) = vis u := by
  funext q
  by_cases hq : q = p
  · simp [vis, hq, h]
  · simp only [vis, Function.update_of_ne hq]

/-- A temporary entry with nothing below it gets its name. -/
theorem vis_rename_in {w : String} (hw : hasWhPfx w = true) (hplain : ¬ Plain w) (hs : PathOk s)
    (hn : NameOk n) (hnone : ∀ r, r ≠ [] → u (s ++ [w] ++ r) = none)
    (hclosed : ∀ r, r ≠ [] → u (s ++ [n] ++ r) = none) :
    vis (LowerOp.effect u (.rename (s ++ [w]) (s ++ [n]))) =
      Function.update (vis u) (s ++ [n]) (u (s ++ [w])) := by
  have hp : PathOk (s ++ [n]) := pathOk_concat.mpr ⟨hs, hn⟩
  have hnot : ¬ Visible (s ++ [w]) := fun h => hplain (visible_concat.mp h).2
  funext q
  by_cases hq : q = s ++ [n]
  · rw [hq, vis_of (visible_of_pathOk hp), Function.update_self]
    simp [LowerOp.effect]
  · rw [Function.update_of_ne hq]
    by_cases hvis : Visible q
    · rw [vis_of hvis, vis_of hvis]
      simp only [LowerOp.effect]
      split_ifs with h₁ h₂
      · obtain ⟨r, rfl⟩ := h₁
        have hr : r ≠ [] := by
          rintro rfl
          simp at hq
        rw [List.drop_left, hnone r hr, hclosed r hr]
      · obtain ⟨r, rfl⟩ := h₂
        by_cases hr : r = []
        · subst hr
          exact absurd (by simpa using hvis) hnot
        · exact absurd hvis (not_visible_append hw hr)
      · rfl
    · simp [vis, hvis]

/-- An entry gets a temporary name. -/
theorem vis_rename_out {w : String} (hw : hasWhPfx w = true) (hplain : ¬ Plain w) :
    vis (LowerOp.effect u (.rename p (s ++ [w]))) = fun q => if p <+: q then none else vis u q := by
  funext q
  by_cases hvis : Visible q
  · have hnot : ¬ s ++ [w] <+: q := by
      rintro ⟨r, rfl⟩
      by_cases hr : r = []
      · subst hr
        exact hplain (visible_concat.mp (by simpa using hvis)).2
      · exact not_visible_append hw hr hvis
    rw [vis_of hvis, vis_of hvis]
    simp only [LowerOp.effect, if_neg hnot]
  · simp [vis, hvis]

end Vis

/-! ## Changes at an entry -/

/-- The entry, what lies below it and its whiteout may differ; below it entries only go, but for the
opaque marker. -/
structure ChangeAt (s : Path) (n : String) (T T' : Tree) : Prop where
  off : ∀ r, ¬ s ++ [n] <+: r → r ≠ s ++ [whName n] → T' r = T r
  under : ∀ r, r ≠ [] → T' (s ++ [n] ++ r) = T (s ++ [n] ++ r) ∨ T' (s ++ [n] ++ r) = none ∨
    r = [diropqName] ∧ T' (s ++ [n] ++ r) = some (.file [])
  whiteout : T' (s ++ [whName n]) = T (s ++ [whName n]) ∨ T' (s ++ [whName n]) = none ∨
    T' (s ++ [whName n]) = some (.file [])

namespace ChangeAt

variable {T T' l : Tree} {s : Path} {n : String} {bad : Set Path}

theorem refl : ChangeAt s n T T := ⟨fun _ _ _ => rfl, fun _ _ => .inl rfl, .inl rfl⟩

theorem ne_whName (hn : NameOk n) {m : String} : n ≠ whName m := Aufs.ne_whName hn.1 m

theorem whName_ne_diropq (hn : hasWhPfx n = false) : whName n ≠ diropqName := by
  intro h
  rw [whName_inj.mp h] at hn
  simp at hn

theorem not_prefix_whName (hn : NameOk n) (s' : Path) (h : ¬ s ++ [n] <+: s') (m : String) :
    ¬ s ++ [n] <+: s' ++ [whName m] := by
  rw [List.prefix_concat_iff]
  rintro (heq | hle)
  · obtain ⟨-, hlast⟩ := List.append_inj' heq rfl
    exact ne_whName hn (List.singleton_inj.mp hlast)
  · exact h hle

/-- The entry itself. -/
theorem update (h : ChangeAt s n T T') (hn : NameOk n) (v : Option Node) :
    ChangeAt s n T (Function.update T' (s ++ [n]) v) := by
  refine ⟨fun r hr hne => ?_, fun r hr => ?_, ?_⟩
  · rw [Function.update_of_ne (by rintro rfl; exact hr (List.prefix_refl _))]
    exact h.off r hr hne
  · rw [Function.update_of_ne (by simpa using hr)]
    exact h.under r hr
  · rw [Function.update_of_ne (by simpa using (ne_whName hn).symm)]
    exact h.whiteout

/-- The whiteout. -/
theorem update_whiteout (h : ChangeAt s n T T') (hn : NameOk n) {v : Option Node}
    (hv : v = none ∨ v = some (.file [])) :
    ChangeAt s n T (Function.update T' (s ++ [whName n]) v) := by
  refine ⟨fun r hr hne => ?_, fun r hr => ?_, ?_⟩
  · rw [Function.update_of_ne hne]
    exact h.off r hr hne
  · rw [Function.update_of_ne ?_]
    · exact h.under r hr
    · intro heq
      rw [List.append_assoc] at heq
      have hhead := congrArg List.head? (List.append_cancel_left heq)
      exact ne_whName hn (Option.some.inj hhead)
  · rw [Function.update_self]
    exact .inr hv

/-- The opaque marker. -/
theorem update_diropq (h : ChangeAt s n T T') (hn : NameOk n) {v : Option Node}
    (hv : v = none ∨ v = some (.file [])) :
    ChangeAt s n T (Function.update T' (s ++ [n] ++ [diropqName]) v) := by
  refine ⟨fun r hr hne => ?_, fun r hr => ?_, ?_⟩
  · rw [Function.update_of_ne (by rintro rfl; exact hr (List.prefix_append _ _))]
    exact h.off r hr hne
  · by_cases hrq : r = [diropqName]
    · subst hrq
      rw [Function.update_self]
      exact hv.elim (fun hv => .inr (.inl hv)) fun hv => .inr (.inr ⟨rfl, hv⟩)
    · rw [Function.update_of_ne (by simpa using hrq)]
      exact h.under r hr
  · rw [Function.update_of_ne ?_]
    · exact h.whiteout
    · intro heq
      rw [List.append_assoc] at heq
      have hhead := congrArg List.head? (List.append_cancel_left heq)
      exact ne_whName hn (Option.some.inj hhead).symm

/-- The entry with all below it. -/
theorem remove (h : ChangeAt s n T T') (hn : NameOk n) :
    ChangeAt s n T (fun q => if s ++ [n] <+: q then none else T' q) := by
  refine ⟨fun r hr hne => ?_, fun r _ => ?_, ?_⟩
  · rw [if_neg hr]
    exact h.off r hr hne
  · exact .inr (.inl (if_pos (List.prefix_append _ _)))
  · rw [if_neg]
    · exact h.whiteout
    · refine not_prefix_whName hn s (fun hle => ?_) n
      simpa using hle.length_le

theorem opens_off (h : ChangeAt s n T T') (hn : NameOk n) {s' : Path} {n' : String}
    (hp : PathOk (s' ++ [n'])) (hq : ¬ s ++ [n] <+: s' ++ [n']) :
    Opens T' l s' n' ↔ Opens T l s' n' := by
  obtain ⟨hs', hn'⟩ := pathOk_concat.mp hp
  have hs : ¬ s ++ [n] <+: s' := fun hle => hq (hle.trans (List.prefix_append _ _))
  have hentry : T' (s' ++ [n']) = T (s' ++ [n']) := by
    refine h.off _ hq fun heq => ?_
    obtain ⟨-, hlast⟩ := List.append_inj' heq rfl
    exact ne_whName hn' (List.singleton_inj.mp hlast)
  have hwhite : T' (s' ++ [whName n']) = T (s' ++ [whName n']) := by
    refine h.off _ (not_prefix_whName hn s' hs n') fun heq => hq ?_
    obtain ⟨rfl, hlast⟩ := List.append_inj' heq rfl
    rw [whName_inj.mp (List.singleton_inj.mp hlast)]
  have hopq : T' (s' ++ [n'] ++ [diropqName]) = T (s' ++ [n'] ++ [diropqName]) := by
    refine h.off _ (not_prefix_whName hn _ hq _) fun heq => ?_
    obtain ⟨-, hlast⟩ := List.append_inj' heq rfl
    exact whName_ne_diropq hn.1 (List.singleton_inj.mp hlast).symm
  rw [Opens, Opens, hentry, hwhite, hopq]

theorem through_off (h : ChangeAt s n T T') (hn : NameOk n) {q : Path} (hp : PathOk q)
    (hq : ¬ s ++ [n] <+: q) : Through T' l q ↔ Through T l q := by
  refine forall_congr' fun s' => forall_congr' fun n' => forall_congr' fun hle => ?_
  exact h.opens_off hn (fun m hm => hp m (hle.subset hm)) fun h => hq (h.trans hle)

/-- **A change at an entry leaves the union alone elsewhere.** -/
theorem union_off (h : ChangeAt s n T T') (hn : NameOk n) {q : Path} (hq : ¬ s ++ [n] <+: q) :
    union T' l q = union T l q := by
  by_cases hp : PathOk q
  · rcases List.eq_nil_or_concat' q with rfl | ⟨s', n', rfl⟩
    · have hroot : T' [] = T [] := h.off [] (by simp) (by simp)
      simp [union, hroot]
    · obtain ⟨hs', hn'⟩ := pathOk_concat.mp hp
      have hs : ¬ s ++ [n] <+: s' := fun hle => hq (hle.trans (List.prefix_append _ _))
      have hentry : T' (s' ++ [n']) = T (s' ++ [n']) := by
        refine h.off _ hq fun heq => ?_
        obtain ⟨-, hlast⟩ := List.append_inj' heq rfl
        exact ne_whName hn' (List.singleton_inj.mp hlast)
      have hbelow : Below T' l (s' ++ [n']) ↔ Below T l (s' ++ [n']) := by
        rw [below_concat, below_concat, h.through_off hn hs' hs, h.off]
        · exact not_prefix_whName hn s' hs n'
        · intro heq
          obtain ⟨rfl, hlast⟩ := List.append_inj' heq rfl
          rw [whName_inj.mp (List.singleton_inj.mp hlast)] at hq
          exact hq (List.prefix_refl _)
      cases hx : T (s' ++ [n']) with
      | some x => rw [union_of_upper hp hx, union_of_upper hp (hentry.trans hx)]
      | none =>
        by_cases hb : Below T l (s' ++ [n'])
        · rw [union_of_below hp hx hb, union_of_below hp (hentry.trans hx) (hbelow.mpr hb)]
        · rw [union_of_not_below hx hb, union_of_not_below (hentry.trans hx) (mt hbelow.mp hb)]
  · simp [union, hp]

/-- What an entry is after a change. -/
theorem cases (h : ChangeAt s n T T') (r : Path) :
    T' r = T r ∨ T' r = none ∨ r = s ++ [n] ∨
      T' r = some (.file []) ∧ (r = s ++ [whName n] ∨ r = s ++ [n] ++ [diropqName]) := by
  by_cases hr : s ++ [n] <+: r
  · obtain ⟨t, rfl⟩ := hr
    by_cases ht : t = []
    · exact .inr (.inr (.inl (by rw [ht, List.append_nil])))
    · rcases h.under t ht with heq | hnone | ⟨rfl, hfile⟩
      · exact .inl heq
      · exact .inr (.inl hnone)
      · exact .inr (.inr (.inr ⟨hfile, .inr rfl⟩))
  · by_cases hwh : r = s ++ [whName n]
    · subst hwh
      rcases h.whiteout with heq | hnone | hfile
      · exact .inl heq
      · exact .inr (.inl hnone)
      · exact .inr (.inr (.inr ⟨hfile, .inl rfl⟩))
    · exact .inl (h.off r hr hwh)

/-- **A change at an entry keeps the upper tree**, but that the entry may stand beside its
whiteout. -/
theorem upper (h : ChangeAt s n T T') (hu : Upper T) (hn : NameOk n) (hdot : ¬ isDot n)
    (hc : T'.Closed)
    (hbad : s ++ [n] ∉ bad → T' (s ++ [whName n]) ≠ none → T' (s ++ [n]) = none) :
    UpperOff bad T' := by
  have hne : ∀ {a b : Path} {x y : String}, a ++ [x] = b ++ [y] → a = b ∧ x = y := fun heq =>
    (List.append_inj' heq rfl).imp_right List.singleton_inj.mp
  have hplain : ∀ {m}, hasWhPfx m = false → m ≠ whName n ∧ m ≠ diropqName := fun hm =>
    ⟨Aufs.ne_whName hm n, Aufs.ne_whName hm _⟩
  have hdotplain : ∀ {m}, isDot m → hasWhPfx m = false := by
    rintro m (rfl | rfl | rfl) <;> decide
  refine ⟨hc, fun s' n' x hs' hn' hx => ?_, fun s' n' hs' hn' hbad' hx => ?_, fun s' x hs' hx => ?_,
    fun s' n' hs' hn' hx => ?_, fun s' n' hs' hd => ⟨?_, ?_⟩⟩
  · rcases h.cases (s' ++ [whName n']) with heq | hnone | heq | ⟨hfile, -⟩
    · exact hu.whiteout s' n' x hs' hn' (heq ▸ hx)
    · rw [hnone] at hx
      cases hx
    · exact absurd (hne heq).2.symm (ne_whName hn)
    · rw [hfile] at hx
      exact Option.some.inj hx ▸ rfl
  · by_cases hself : s' ++ [n'] = s ++ [n]
    · obtain ⟨rfl, rfl⟩ := hne hself
      exact hbad hbad' hx
    · rcases h.cases (s' ++ [n']) with heq | hnone | heq | ⟨-, heq | heq⟩
      · rw [heq]
        rcases h.cases (s' ++ [whName n']) with heq' | hnone | heq' | ⟨-, heq' | heq'⟩
        · exact hu.apart s' n' hs' hn' (Set.notMem_empty _) (heq' ▸ hx)
        · exact absurd hnone hx
        · exact absurd (hne heq').2.symm (ne_whName hn)
        · refine absurd ?_ hself
          rw [(hne heq').1, whName_inj.mp (hne heq').2]
        · exact absurd (hne heq').2 (whName_ne_diropq hn')
      · exact hnone
      · exact absurd heq hself
      · exact absurd (hne heq).2 (hplain hn').1
      · exact absurd (hne heq).2 (hplain hn').2
  · rcases h.cases (s' ++ [diropqName]) with heq | hnone | heq | ⟨hfile, -⟩
    · exact hu.marker s' x hs' (heq ▸ hx)
    · rw [hnone] at hx
      cases hx
    · exact absurd (hne heq).2.symm (ne_whName hn)
    · rw [hfile] at hx
      exact Option.some.inj hx ▸ rfl
  · rcases h.cases (s' ++ [n']) with heq | hnone | heq | ⟨-, heq | heq⟩
    · exact hu.length s' n' hs' hn' (heq ▸ hx)
    · exact absurd hnone hx
    · exact (hne heq).2 ▸ hn.2
    · exact absurd (hne heq).2 (hplain hn').1
    · exact absurd (hne heq).2 (hplain hn').2
  · rcases h.cases (s' ++ [n']) with heq | hnone | heq | ⟨-, heq | heq⟩
    · exact heq.trans (hu.dots s' n' hs' hd).1
    · exact hnone
    · exact absurd ((hne heq).2 ▸ hd) hdot
    · exact absurd (hne heq).2 (hplain (hdotplain hd)).1
    · exact absurd (hne heq).2 (hplain (hdotplain hd)).2
  · rcases h.cases (s' ++ [whName n']) with heq | hnone | heq | ⟨-, heq | heq⟩
    · exact heq.trans (hu.dots s' n' hs' hd).2
    · exact hnone
    · exact absurd (hne heq).2.symm (ne_whName hn)
    · exact absurd (whName_inj.mp (hne heq).2 ▸ hd) hdot
    · exact absurd (hne heq).2 (whName_ne_diropq (hdotplain hd))

/-- The union differs at the entry only where nothing lies below it. -/
theorem union_eq_update (h : ChangeAt s n T T') (hT : T.Closed) (hT' : T'.Closed) (hn : NameOk n)
    {x : Option Node} (hp : union T' l (s ++ [n]) = x)
    (hempty : ∀ m, union T l (s ++ [n] ++ [m]) = none)
    (hempty' : ∀ m, union T' l (s ++ [n] ++ [m]) = none) :
    union T' l = Function.update (union T l) (s ++ [n]) x := by
  funext q
  by_cases hq : s ++ [n] <+: q
  · obtain ⟨r, rfl⟩ := hq
    by_cases hr : r = []
    · rw [hr, List.append_nil, hp, Function.update_self]
    · rw [Function.update_of_ne (by simpa using hr),
        (union_closed hT).eq_none_of_empty hempty hr,
        (union_closed hT').eq_none_of_empty hempty' hr]
  · rw [Function.update_of_ne (by rintro rfl; exact hq (List.prefix_refl _))]
    exact h.union_off hn hq

/-- **An entry is removed**: below it nothing showed, and what the lower tree has is hidden. -/
theorem union_remove (h : ChangeAt s n T T') (hT : T.Closed) (hT' : T'.Closed) (hn : NameOk n)
    (hnone : T' (s ++ [n]) = none)
    (hhidden : T' (s ++ [whName n]) ≠ none ∨ ¬ Through T l s ∨ l (s ++ [n]) = none)
    (hempty : ∀ m, union T l (s ++ [n] ++ [m]) = none) :
    union T' l = Function.update (union T l) (s ++ [n]) none := by
  have hp : union T' l (s ++ [n]) = none := by
    by_cases hok : PathOk (s ++ [n])
    · by_cases hb : Below T' l (s ++ [n])
      · obtain ⟨hs, hwh⟩ := below_concat.mp hb
        have hnot : ¬ s ++ [n] <+: s := fun hle => by simpa using hle.length_le
        have hs' := (h.through_off hn (pathOk_concat.mp hok).1 hnot).mp hs
        rw [union_of_below hok hnone hb]
        exact (hhidden.resolve_left (not_not_intro hwh)).resolve_left (not_not_intro hs')
      · exact union_of_not_below hnone hb
    · simp [union, hok]
  exact h.union_eq_update hT hT' hn hp hempty fun m =>
    (union_closed hT').eq_none (by simp [hp]) (by simp)

/-- **An entry is put in place**: below it nothing showed, and below a new directory nothing
shows. -/
theorem union_put (h : ChangeAt s n T T') (hT : T.Closed) (hT' : T'.Closed)
    (hok : PathOk (s ++ [n])) {x : Node} (hx : T' (s ++ [n]) = some x)
    (hdir : x = .dir → ¬ Through T' l (s ++ [n]) ∧ ∀ m, NameOk m → T' (s ++ [n] ++ [m]) = none)
    (hempty : ∀ m, union T l (s ++ [n] ++ [m]) = none) :
    union T' l = Function.update (union T l) (s ++ [n]) (some x) := by
  have hp : union T' l (s ++ [n]) = some x := union_of_upper hok hx
  refine h.union_eq_update hT hT' (pathOk_concat.mp hok).2 hp hempty fun m => ?_
  by_cases hxd : x = .dir
  · obtain ⟨hnot, hnone⟩ := hdir hxd
    by_cases hm : NameOk m
    · exact union_of_not_below (hnone m hm) fun hb => hnot (below_concat.mp hb).1
    · exact if_neg fun hok' => hm (pathOk_concat.mp hok').2
  · exact (union_closed hT').eq_none (by simpa [hp] using hxd) (by simp)

end ChangeAt

section Copyup

variable {T l : Tree} {s : Path} {n : String}

theorem opens_copyup (hT : T.Closed) (hn : NameOk n) (hnone : T (s ++ [n]) = none) {x : Node}
    (hl : l (s ++ [n]) = some x) (s' : Path) (n' : String) :
    Opens (Function.update T (s ++ [n]) (some x)) l s' n' ↔ Opens T l s' n' := by
  have hwhite : s' ++ [whName n'] ≠ s ++ [n] := fun heq =>
    ne_whName hn.1 n' (List.append_singleton_inj.mp heq).2.symm
  have hopq : s' ++ [n'] ++ [diropqName] ≠ s ++ [n] := fun heq =>
    ne_whName hn.1 _ (List.append_singleton_inj.mp heq).2.symm
  rw [Opens, Opens, Function.update_of_ne hwhite, Function.update_of_ne hopq]
  by_cases hself : s' ++ [n'] = s ++ [n]
  · rw [hself, Function.update_self, hl, hnone]
    have hno : T (s ++ [n] ++ [diropqName]) = none := hT.eq_none (by simp [hnone]) (by simp)
    simp only [hno, reduceCtorEq, Option.some.injEq, and_true, true_or, false_or]
    tauto
  · rw [Function.update_of_ne hself]

/-- **An entry that is copied up shows as before.** -/
theorem union_copyup (hT : T.Closed) (hn : NameOk n) (hnone : T (s ++ [n]) = none) {x : Node}
    (hx : union T l (s ++ [n]) = some x) :
    union (Function.update T (s ++ [n]) (some x)) l = union T l := by
  have hok := pathOk_of_union (p := s ++ [n]) (u := T) (l := l) (by simp [hx])
  have hl : l (s ++ [n]) = some x := by
    by_cases hb : Below T l (s ++ [n])
    · rw [← hx, union_of_below hok hnone hb]
    · rw [union_of_not_below hnone hb] at hx
      cases hx
  have hthrough : ∀ q, Through (Function.update T (s ++ [n]) (some x)) l q ↔ Through T l q :=
    fun q => forall_congr' fun s' => forall_congr' fun n' => forall_congr' fun _ =>
      opens_copyup hT hn hnone hl s' n'
  funext q
  by_cases hq : q = s ++ [n]
  · rw [hq, hx]
    exact union_of_upper hok (Function.update_self ..)
  · by_cases hqok : PathOk q
    · have hbelow : Below (Function.update T (s ++ [n]) (some x)) l q ↔ Below T l q := by
        rcases List.eq_nil_or_concat' q with rfl | ⟨s', n', rfl⟩
        · simp
        · rw [below_concat, below_concat, hthrough s', Function.update_of_ne]
          exact fun heq => ne_whName hn.1 n' (List.append_singleton_inj.mp heq).2.symm
      have hentry : Function.update T (s ++ [n]) (some x) q = T q := Function.update_of_ne hq _ _
      cases hTq : T q with
      | some y => rw [union_of_upper hqok hTq, union_of_upper hqok (hentry.trans hTq)]
      | none =>
        by_cases hb : Below T l q
        · rw [union_of_below hqok hTq hb, union_of_below hqok (hentry.trans hTq) (hbelow.mpr hb)]
        · rw [union_of_not_below hTq hb, union_of_not_below (hentry.trans hTq) (mt hbelow.mp hb)]
    · simp [union, hqok]

end Copyup

end Meta3dr.Aufs
