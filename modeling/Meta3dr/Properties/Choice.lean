import Meta3dr.Properties.Sample

/-!
# The choice of the newest tarball

The update branch sorts the tarballs it finds and keeps the last one. Builds are named by their
time, fourteen digits under a common base, and the bytewise order of such names is the order of
the times as numbers.

## Main definitions

* `number d`: the number a text of digits denotes
* `IsDateTime`, `published base d`: times, and the name of the tarball of a build
* `IsTarball c p`: the tarballs that the branch finds on LOG

## Main results

* `append_le_append_of_number`: the order of digits is the order of their numbers
* `chosen_newest`: the newest tarball is chosen
-/

namespace Meta3dr

open Shell Storage Program

/-! ## Digits -/

/-- A decimal digit. -/
def IsDigit (c : Char) : Prop := '0' ≤ c ∧ c ≤ '9'

instance (c : Char) : Decidable (IsDigit c) := inferInstanceAs (Decidable (_ ∧ _))

/-- The value of a digit. -/
def digitValue (c : Char) : ℕ := c.toNat - '0'.toNat

/-- The number that a text of digits denotes. -/
def number (d : Text) : ℕ := d.foldl (fun n c => 10 * n + digitValue c) 0

theorem digitValue_lt {c : Char} (h : IsDigit c) : digitValue c < 10 := by
  have h₉ : c.toNat ≤ '9'.toNat := h.2
  have e₀ : '0'.toNat = 48 := rfl
  have e₉ : '9'.toNat = 57 := rfl
  unfold digitValue
  omega

/-- The order of digits is the order of their values. -/
theorem digitValue_le {c d : Char} (hd : IsDigit d) (h : digitValue c ≤ digitValue d) (hc : IsDigit c) :
    c < d ∨ c = d := by
  have hc₀ : '0'.toNat ≤ c.toNat := hc.1
  have hd₀ : '0'.toNat ≤ d.toNat := hd.1
  unfold digitValue at h
  rcases Nat.lt_or_eq_of_le (show c.toNat ≤ d.toNat by omega) with hlt | heq
  · exact Or.inl hlt
  · exact Or.inr (Char.toNat_inj.mp heq)

theorem foldl_digits (n : ℕ) (d : Text) :
    d.foldl (fun n c => 10 * n + digitValue c) n = n * 10 ^ d.length + number d := by
  unfold number
  induction d generalizing n with
  | nil => simp
  | cons c d ih =>
    rw [List.foldl_cons, List.foldl_cons, ih, ih (10 * 0 + _), List.length_cons]
    ring

theorem number_cons (c : Char) (d : Text) :
    number (c :: d) = digitValue c * 10 ^ d.length + number d := by
  rw [number, List.foldl_cons, foldl_digits]
  simp

theorem number_lt {d : Text} (h : ∀ c ∈ d, IsDigit c) : number d < 10 ^ d.length := by
  induction d with
  | nil => simp [number]
  | cons c d ih =>
    have hd := ih fun x hx => h x (List.mem_cons_of_mem _ hx)
    have hc := digitValue_lt (h c List.mem_cons_self)
    rw [number_cons, List.length_cons, pow_succ]
    nlinarith

/-- **Digits of equal length are ordered as their numbers**, whatever follows them. -/
theorem append_le_append_of_number {d d' : Text} (hlen : d.length = d'.length)
    (h : ∀ c ∈ d, IsDigit c) (h' : ∀ c ∈ d', IsDigit c) (hle : number d ≤ number d') (t : Text) :
    d ++ t ≤ d' ++ t := by
  induction d generalizing d' with
  | nil =>
    rw [List.length_eq_zero_iff.mp hlen.symm]
  | cons c d ih =>
    rcases d' with _ | ⟨c', d'⟩
    · simp at hlen
    · have hlen' : d.length = d'.length := by simpa using hlen
      have hd : ∀ x ∈ d, IsDigit x := fun x hx => h x (List.mem_cons_of_mem _ hx)
      have hd' : ∀ x ∈ d', IsDigit x := fun x hx => h' x (List.mem_cons_of_mem _ hx)
      have hc := h c List.mem_cons_self
      have hc' := h' c' List.mem_cons_self
      rw [number_cons, number_cons, hlen'] at hle
      have hlt' := number_lt hd'
      have hvalue : digitValue c ≤ digitValue c' := by
        by_contra hgt
        have hstep : (digitValue c' + 1) * 10 ^ d'.length ≤ digitValue c * 10 ^ d'.length :=
          Nat.mul_le_mul_right _ (by omega)
        rw [Nat.succ_mul] at hstep
        omega
      rw [List.cons_append, List.cons_append, cons_le_cons_iff]
      rcases digitValue_le hc' hvalue hc with hlt | rfl
      · exact Or.inl hlt
      · exact Or.inr ⟨rfl, ih hlen' hd hd' (by omega)⟩

/-! ## Names -/

/-- A time of build: `DATETIME` with fourteen digits. -/
def IsDateTime (d : Text) : Prop := d.length = 14 ∧ ∀ c ∈ d, IsDigit c

/-- The ending of a tarball's name. -/
abbrev tarGz : Text := ".tar.gz".toList

/-- The name under which the tarball of a build is published. -/
def published (base d : Text) : String := String.ofList (base ++ '-' :: d ++ tarGz)

/-- A base name without blanks, pattern characters and slashes. -/
def IsBase (base : Text) : Prop :=
  ∀ c ∈ base, isBlank c = false ∧ c ∉ ['*', '?', '['] ∧ c ≠ '/'

/-- A regular file below the directory of the updates with the ending of tarballs. -/
def IsTarball (c : Card) (p : Path) : Prop :=
  (∃ t, (c.files .p4).get p = some (.file t)) ∧ ["updates"] <+: p ∧
    ∃ n ∈ (p.drop 1).getLast?, tarGz <:+ n.toList

/-- The word for the tarball of a build. -/
def tarballWord (base d : Text) : Text := pathText (updates ++ [published base d])

section Word

variable {base d : Text}

theorem tarballWord_eq : tarballWord base d =
    pathText updates ++ '/' :: (base ++ '-' :: (d ++ tarGz)) := by
  rw [tarballWord, pathText, List.flatMap_append, ← pathText, List.flatMap_singleton, published,
    String.toList_ofList, List.append_assoc, List.cons_append]

theorem published_injective {d' : Text} (h : published base d = published base d') : d = d' := by
  have hlist := congrArg String.toList h
  simpa [published] using hlist

theorem IsDigit.plain {c : Char} (h : IsDigit c) : isBlank c = false ∧ c ∉ ['*', '?', '['] := by
  obtain ⟨h₀, h₉⟩ := h
  have hc₀ : 48 ≤ c.toNat := h₀
  have hc₉ : c.toNat ≤ 57 := h₉
  refine ⟨?_, ?_⟩
  · simp only [isBlank, Bool.or_eq_false_iff, beq_eq_false_iff_ne]
    refine ⟨⟨?_, ?_⟩, ?_⟩ <;> rintro rfl <;> revert hc₀ <;> decide
  · simp only [List.mem_cons, List.not_mem_nil, or_false, not_or]
    refine ⟨?_, ?_, ?_⟩ <;> rintro rfl <;> revert hc₀ hc₉ <;> decide

theorem pathText_updates_plain :
    ∀ c ∈ pathText updates, isBlank c = false ∧ c ∉ ['*', '?', '['] :=
  List.all_iff_forall_prop.mp (by decide)

theorem tarGz_plain : ∀ c ∈ tarGz, isBlank c = false ∧ c ∉ ['*', '?', '['] :=
  List.all_iff_forall_prop.mp (by decide)

theorem tarballWord_chars (hbase : IsBase base) (hd : IsDateTime d) :
    ∀ c ∈ tarballWord base d, isBlank c = false ∧ c ∉ ['*', '?', '['] := by
  intro c hc
  rw [tarballWord_eq] at hc
  rcases List.mem_append.mp hc with hc | hc
  · exact pathText_updates_plain c hc
  rcases List.mem_cons.mp hc with rfl | hc
  · decide
  rcases List.mem_append.mp hc with hc | hc
  · exact ⟨(hbase c hc).1, (hbase c hc).2.1⟩
  rcases List.mem_cons.mp hc with rfl | hc
  · decide
  rcases List.mem_append.mp hc with hc | hc
  · exact (hd.2 c hc).plain
  · exact tarGz_plain c hc

theorem tarballWord_le (hd : IsDateTime d) {d' : Text} (hd' : IsDateTime d')
    (h : number d ≤ number d') : tarballWord base d ≤ tarballWord base d' := by
  have hle := append_le_append_of_number (hd.1.trans hd'.1.symm) hd.2 hd'.2 h tarGz
  rw [tarballWord_eq, tarballWord_eq]
  refine append_le_append_left _ (cons_le_cons_iff.mpr (Or.inr ⟨rfl, ?_⟩))
  exact append_le_append_left _ (cons_le_cons_iff.mpr (Or.inr ⟨rfl, hle⟩))

end Word

/-! ## The choice -/

section Choice

variable (w : World) (c : Card)

/-- The words that `find` prints for the tarballs. -/
def tarballWords : List Text :=
  (((readyGone c).files .p4).find ["updates"] tarGz).map fun p => pathText (updates ++ p.drop 1)

/-- Keeping each word in turn ends with the last one. -/
theorem foldl_last (ts : List Text) (t : Text) :
    ts.foldl (fun _ file => file) t = ts.getLast?.getD t := by
  induction ts generalizing t with
  | nil => rfl
  | cons u ts ih => rw [List.foldl_cons, ih, List.getLast?_cons, Option.getD_some]

theorem found_choosing : (choosing w c).found updates tarGz = lines (unlines (tarballWords c)) := by
  have hs : (choosing w c).LogMounted := Machine.logMounted_log _ _ _
  have htree : (choosing w c).treeOf updates = (readyGone c).files .p4 := by
    rw [Machine.treeOf, hs ["updates"]]
    rfl
  rw [Machine.found, htree, hs.below ["updates"]]
  rfl

/-- What the branch finds are the tarballs on LOG; `READY` is none. -/
theorem mem_find_readyGone {p : Path} :
    p ∈ ((readyGone c).files .p4).find ["updates"] tarGz ↔ IsTarball c p := by
  rw [Files.mem_find, IsTarball]
  refine and_congr_left fun ⟨hdir, n, hn, hsuf⟩ => ?_
  have hne : p ≠ [] := by
    rintro rfl
    simp at hdir
  have hready : p ≠ ["updates", "READY"] := by
    rintro rfl
    obtain rfl : "READY" = n := by simpa using hn
    exact absurd hsuf (by decide)
  rw [← Files.get_of_ne_nil _ hne, get_readyGone c hready]

variable {base : Text}
  (hnames : ∀ p, IsTarball c p → ∃ d, IsDateTime d ∧ p = ["updates", published base d])
include hnames

theorem tarballWords_published {t : Text} (ht : t ∈ tarballWords c) :
    ∃ d, IsDateTime d ∧ IsTarball c ["updates", published base d] ∧ t = tarballWord base d := by
  obtain ⟨p, hp, rfl⟩ := List.mem_map.mp ht
  have htar := (mem_find_readyGone c).mp hp
  obtain ⟨d, hd, rfl⟩ := hnames p htar
  exact ⟨d, hd, htar, rfl⟩

variable (hbase : IsBase base)
include hbase

/-- The chosen word is the last of the sorted words. -/
theorem chosen_eq : chosen (choosing w c) = (sortLines (tarballWords c)).getLast?.getD [] := by
  have hplain : ∀ t ∈ tarballWords c, ∀ ch ∈ t, isBlank ch = false ∧ ch ∉ ['*', '?', '['] :=
    fun t ht => by
      obtain ⟨d, hd, -, rfl⟩ := tarballWords_published c hnames ht
      exact tarballWord_chars hbase hd
  have hne : ∀ t ∈ tarballWords c, t ≠ [] := fun t ht => by
    obtain ⟨d, -, -, rfl⟩ := tarballWords_published c hnames ht
    rw [tarballWord_eq]
    simp
  have hmagic : ∀ t ∈ tarballWords c, hasMagic t = false := fun t ht => by
    simp only [hasMagic, List.any_eq_false]
    intro ch hch
    simpa [and_assoc] using (hplain t ht ch hch).2
  have hlines : ∀ t ∈ tarballWords c, '\n' ∉ t := fun t ht hnl =>
    absurd (hplain t ht _ hnl).1 (by decide)
  rw [chosen, found_choosing, lines_unlines hlines, Machine.words, expand_unlines, foldl_last]
  · exact fun t ht => hne t (mem_sortLines.mp ht)
  · exact fun t ht ch hch => (hplain t (mem_sortLines.mp ht) ch hch).1
  · exact fun t ht => expandWord_of_not_magic _ _ _ (hmagic t (mem_sortLines.mp ht))

/-- **The newest tarball is chosen**, when the tarballs on LOG are builds under one base name: the
one with the greatest time as a number, and none exactly when there is none. The directory of the
updates is no link, and `latestFile` is not set before the loop. -/
theorem chosen_newest (x : Circumstances) :
    ((chooseTarball.run (step w x) (choosing w c)).1 = .ok [] ↔ ∀ p, ¬ IsTarball c p) ∧
    ∀ d, IsDateTime d → IsTarball c ["updates", published base d] →
      (∀ d', IsDateTime d' → IsTarball c ["updates", published base d'] → number d' ≤ number d) →
      (chooseTarball.run (step w x) (choosing w c)).1 = .ok (tarballWord base d) := by
  have hmem : ∀ d, IsTarball c ["updates", published base d] →
      tarballWord base d ∈ tarballWords c := fun d hd =>
    List.mem_map.mpr ⟨_, (mem_find_readyGone c).mpr hd, rfl⟩
  rw [chooseTarball_returns.run, chosen_eq w c hnames hbase]
  simp only [Except.ok.injEq]
  refine ⟨?_, fun d hd htar hmax => ?_⟩
  · constructor
    · intro hnil p hp
      obtain ⟨d, -, rfl⟩ := hnames p hp
      have hin := mem_sortLines.mpr (hmem d hp)
      cases hlast : (sortLines (tarballWords c)).getLast? with
      | none => simp [List.getLast?_eq_none_iff.mp hlast] at hin
      | some t =>
        rw [hlast, Option.getD_some] at hnil
        have ht := mem_sortLines.mp (List.mem_of_getLast? hlast)
        obtain ⟨d', -, -, rfl⟩ := tarballWords_published c hnames ht
        rw [tarballWord_eq] at hnil
        simp at hnil
    · intro hnone
      have hnil : tarballWords c = [] := by
        rw [List.eq_nil_iff_forall_not_mem]
        intro t ht
        obtain ⟨d, -, htar, -⟩ := tarballWords_published c hnames ht
        exact hnone _ htar
      rw [hnil]
      rfl
  · have hle : ∀ t ∈ tarballWords c, t ≤ tarballWord base d := fun t ht => by
      obtain ⟨d', hd', htar', rfl⟩ := tarballWords_published c hnames ht
      exact tarballWord_le hd' hd (hmax d' hd' htar')
    rw [getLast?_sortLines (hmem d htar) hle, Option.getD_some]

end Choice

/-- Two builds on LOG, the later one listed first. -/
def Sample.twoBuilds : Card :=
  Sample.card (Sample.withUpdate [Sample.file "solo-20160101000000.tar.gz" "B",
    Sample.file "solo-20151119134527.tar.gz" "A", Sample.file "notes.txt" "C"])

/-- The later one is chosen. -/
theorem chosen_newest_twoBuilds :
    (chooseTarball.run (step Sample.world {}) (choosing Sample.world Sample.twoBuilds)).1 =
      .ok (tarballWord "solo".toList "20160101000000".toList) := by
  have hfind : ((readyGone Sample.twoBuilds).files .p4).find ["updates"] tarGz =
      [["updates", "solo-20151119134527.tar.gz"], ["updates", "solo-20160101000000.tar.gz"]] := by
    decide
  have hcases : ∀ p, IsTarball Sample.twoBuilds p →
      p = ["updates", published "solo".toList "20151119134527".toList] ∨
        p = ["updates", published "solo".toList "20160101000000".toList] := fun p hp => by
    rw [← mem_find_readyGone, hfind] at hp
    simpa [published] using hp
  have htar : IsTarball Sample.twoBuilds
      ["updates", published "solo".toList "20160101000000".toList] := by
    rw [← mem_find_readyGone, hfind]
    simp [published]
  have hbase : IsBase "solo".toList := List.all_iff_forall_prop.mp (by decide)
  have hold : IsDateTime "20151119134527".toList :=
    ⟨rfl, List.all_iff_forall_prop.mp (by decide)⟩
  have hnew : IsDateTime "20160101000000".toList :=
    ⟨rfl, List.all_iff_forall_prop.mp (by decide)⟩
  refine (chosen_newest Sample.world Sample.twoBuilds (fun p hp => ?_) hbase {}).2 _ hnew htar
    fun d' _ hd' => ?_
  · rcases hcases p hp with rfl | rfl
    · exact ⟨_, hold, rfl⟩
    · exact ⟨_, hnew, rfl⟩
  · have hnum : number d' = number "20151119134527".toList ∨
        number d' = number "20160101000000".toList :=
      (hcases _ hd').imp (fun h => congrArg number (published_injective (List.cons.inj
        (List.cons.inj h).2).1)) fun h => congrArg number (published_injective (List.cons.inj
        (List.cons.inj h).2).1)
    have hlt : number "20151119134527".toList ≤ number "20160101000000".toList := by decide
    omega

end Meta3dr
