import Meta3dr.Aufs.Vdir
import Meta3dr.CLib.HashTable

/-!
# The listing of a directory of the union

A directory of the union is listed branch by branch from the top. Two hash tables of names are kept
on the way, of the entries listed so far and of the whiteouts met so far, and an entry whose name is
in one of them is passed over.

## Main definitions

* `auNameHash`: the hash value of a name
* `fillvdir`, `readBranches`, `readVdir`: one entry of a branch, and all branches of a directory
* `mergeEntry`, `mergeAll`: the same with lists in place of the tables and the blocks

## Main results

* `readBranches_merge`: the tables and the blocks do what the lists do
* `typeOf_mergeAll`: over sound branches the first entry that no whiteout hides is listed
-/

namespace Meta3dr.Aufs

open Shell CLib

/-- `au_name_hash`: the sum of the bytes of a name, modulo the number of chains. -/
def auNameHash (num : ℕ) [NeZero num] (name : String) : Fin num :=
  Fin.ofNat num (name.toUTF8.data.toList.foldl (fun v c => v + c.toUInt32) (0 : UInt32)).toNat

/-- The name behind the prefix of whiteouts. -/
def stripWh (name : String) : String := .ofList (name.toList.drop 4)

@[simp] theorem stripWh_whName (n : String) : stripWh (whName n) = n := by
  rw [stripWh, toList_whName]
  exact String.ofList_toList

/-- An entry that is listed under its own name: it has no prefix, or nothing behind it. -/
def isOrdinary (name : String) : Bool :=
  name.utf8ByteSize ≤ whPfx.utf8ByteSize || !hasWhPfx name

/-- The type in an entry; it is left open for a name that is too long for a lookup. -/
def dType (name : String) (k : Kind) : Option Kind :=
  if maxNameLen < name.utf8ByteSize then none else some k

/-- What the directory of a branch hands out. -/
def hReaddir (fs : Files) (dir : Path) : List (String × Kind) :=
  (".", .dir) :: ("..", .dir) ::
    (fs.names dir).filterMap fun n => (fs.get (dir ++ [n])).map fun x => (n, kind x)

/-- `struct fillvdir_arg`: the blocks, and the tables of listed names and of whiteouts. -/
structure FillvdirArg (num : ℕ) where
  vdir : Vdir
  delist : HashTable String num
  whlist : HashTable String num

section Tables

variable {num : ℕ} [NeZero num] (raw : Deblk)

/-- `fillvdir`: an entry of a branch, whose whiteouts may count. -/
def fillvdir (whable : Bool) (arg : FillvdirArg num) (x : String × Kind) :
    Except Errno (FillvdirArg num) :=
  if isOrdinary x.1 then
    if arg.delist.test (auNameHash num) x.1 || arg.whlist.test (auNameHash num) x.1 then .ok arg
    else do
      let vdir ← appendDe raw arg.vdir ⟨dType x.1 x.2, x.1⟩
      return { arg with vdir, delist := arg.delist.add (auNameHash num) x.1 }
  else if whable then
    let name := stripWh x.1
    if arg.whlist.test (auNameHash num) name then .ok arg
    else .ok { arg with whlist := arg.whlist.add (auNameHash num) name }
  else .ok arg

/-- The loop of `au_do_read_vdir`; the whiteouts of the last branch hide nothing. -/
def readBranches (dir : Path) : List (ℕ × Branch) → FillvdirArg num → Except Errno (FillvdirArg num)
  | [], arg => .ok arg
  | (_, br) :: brs, arg => do
    let arg ← (hReaddir br.files dir).foldlM (fillvdir raw (!brs.isEmpty && auBrWhable br)) arg
    readBranches dir brs arg

/-- `read_vdir` of a directory that was not read before, with the number of chains and the size of
the blocks: the listing, with its last pointer at the start. -/
def readVdir (num : ℕ) [NeZero num] (deblkSz : ℕ) (brs : List (ℕ × Branch)) (dir : Path) :
    Except Errno Vdir := do
  let vdir ← allocVdir raw deblkSz
  let arg ← readBranches raw dir brs (⟨vdir, .empty, .empty⟩ : FillvdirArg num)
  return { arg.vdir with lastUl := 0, lastP := 0 }

end Tables

/-! ## The listing as lists -/

/-- The entries listed so far, and the names whose whiteouts were met. -/
abbrev Merge := List De × List String

/-- An entry of a branch. -/
def mergeEntry (whable : Bool) (m : Merge) (x : String × Kind) : Merge :=
  if isOrdinary x.1 then
    if x.1 ∈ m.1.map De.deStr ∨ x.1 ∈ m.2 then m else (m.1 ++ [⟨dType x.1 x.2, x.1⟩], m.2)
  else if whable then (m.1, if stripWh x.1 ∈ m.2 then m.2 else stripWh x.1 :: m.2)
  else m

/-- The entries of all branches. -/
def mergeAll (dir : Path) : List (ℕ × Branch) → Merge → Merge
  | [], m => m
  | (_, br) :: brs, m => mergeAll dir brs
      ((hReaddir br.files dir).foldl (mergeEntry (!brs.isEmpty && auBrWhable br)) m)

/-- The type listed for a name. -/
def typeOf (es : List De) (name : String) : Option (Option Kind) :=
  (es.find? (·.deStr = name)).map De.deType

section Merge

variable {dir : Path} {name : String}

theorem typeOf_append (es : List De) (de : De) :
    typeOf (es ++ [de]) name =
      (typeOf es name).or (if de.deStr = name then some de.deType else none) := by
  unfold typeOf
  rw [List.find?_append]
  cases es.find? (·.deStr = name) with
  | some _ => rfl
  | none => by_cases h : de.deStr = name <;> simp [h]

theorem typeOf_isSome {es : List De} : (typeOf es name).isSome ↔ name ∈ es.map De.deStr := by
  simp [typeOf, List.find?_isSome]

/-- Where each name is listed once, the type of an entry is the type listed for its name. -/
theorem mem_iff_typeOf {es : List De} (h : (es.map De.deStr).Nodup) {t : Option Kind} :
    ⟨t, name⟩ ∈ es ↔ typeOf es name = some t := by
  induction es with
  | nil => simp [typeOf]
  | cons de es ih =>
    rw [List.map_cons, List.nodup_cons] at h
    obtain ⟨hnot, hes⟩ := h
    by_cases hde : de.deStr = name
    · have hmem : (⟨t, name⟩ : De) ∉ es := fun hmem => hnot (hde ▸ List.mem_map_of_mem hmem)
      obtain ⟨t', s⟩ := de
      simp only at hde
      subst hde
      simp [typeOf, hmem, eq_comm]
    · have hne : (⟨t, name⟩ : De) ≠ de := by
        rintro rfl
        exact hde rfl
      simpa [typeOf, hde, hne] using ih hes

/-- Each name is listed once. -/
theorem nodup_mergeEntry {m : Merge} (h : (m.1.map De.deStr).Nodup) (whable : Bool)
    (x : String × Kind) : ((mergeEntry whable m x).1.map De.deStr).Nodup := by
  unfold mergeEntry
  by_cases hord : isOrdinary x.1 = true
  · rw [if_pos hord]
    by_cases hknown : x.1 ∈ m.1.map De.deStr ∨ x.1 ∈ m.2
    · rwa [if_pos hknown]
    · rw [if_neg hknown, List.map_append, List.nodup_append]
      refine ⟨h, by simp, ?_⟩
      rintro a ha b hb rfl
      obtain rfl : a = x.1 := by simpa using hb
      exact hknown (.inl ha)
  · rw [if_neg hord]
    split_ifs <;> exact h

theorem nodup_mergeAll (dir : Path) (brs : List (ℕ × Branch)) {m : Merge}
    (h : (m.1.map De.deStr).Nodup) :
    ((mergeAll dir brs m).1.map De.deStr).Nodup := by
  induction brs generalizing m with
  | nil => exact h
  | cons x brs ih =>
    refine ih ?_
    generalize hReaddir x.2.files dir = l
    induction l generalizing m with
    | nil => exact h
    | cons y l ihl => exact ihl (nodup_mergeEntry h _ y)

theorem isOrdinary_of_not_hasWhPfx (h : hasWhPfx name = false) : isOrdinary name = true := by
  simp [isOrdinary, h]

theorem isOrdinary_whName (h : name ≠ "") : isOrdinary (whName name) = false := by
  have hpos : name.utf8ByteSize ≠ 0 := by
    rwa [Ne, String.utf8ByteSize_eq_zero_iff]
  rw [isOrdinary, hasWhPfx_whName, whName, String.utf8ByteSize_append, Bool.not_true, Bool.or_false]
  exact decide_eq_false (by omega)

theorem hasWhPfx_of_not_isOrdinary (h : isOrdinary name = false) : hasWhPfx name = true := by
  simp only [isOrdinary, Bool.or_eq_false_iff, Bool.not_eq_false'] at h
  exact h.2

/-- What is listed for a name after the entries of a branch in which the name does not stand beside
its whiteout. -/
theorem typeOf_foldl (hn : hasWhPfx name = false) (hne : name ≠ "") (whable : Bool)
    {l : List (String × Kind)}
    (hapart : whable = true → whName name ∈ l.map Prod.fst → l.lookup name = none) (m : Merge) :
    typeOf (l.foldl (mergeEntry whable) m).1 name =
        (typeOf m.1 name).or
          (if name ∈ m.2 then none else (l.lookup name).map (dType name)) ∧
      (name ∈ (l.foldl (mergeEntry whable) m).2 ↔
        name ∈ m.2 ∨ whable = true ∧ whName name ∈ l.map Prod.fst) := by
  induction l generalizing m with
  | nil => simp
  | cons x l ih =>
    obtain ⟨a, k⟩ := x
    have hlookup : (if name = a then some k else l.lookup name) =
        List.lookup name ((a, k) :: l) := by
      by_cases h : name = a
      · simp [h]
      · rw [if_neg h, List.lookup_cons, beq_eq_false_iff_ne.mpr h]
    have hapart' : whable = true → whName name ∈ l.map Prod.fst → l.lookup name = none := by
      intro hw hmem
      have hnone := hapart hw (List.mem_cons_of_mem _ hmem)
      rw [← hlookup] at hnone
      split_ifs at hnone
      exact hnone
    obtain ⟨htype, hwhite⟩ := ih hapart' (mergeEntry whable m (a, k))
    rw [List.foldl_cons, htype, hwhite, ← hlookup, List.map_cons, List.mem_cons]
    unfold mergeEntry
    cases hord : isOrdinary a with
    | true =>
      have hane : whName name ≠ a := by
        rintro rfl
        rw [isOrdinary_whName hne] at hord
        cases hord
      simp only [if_true, hane, false_or]
      by_cases hknown : a ∈ m.1.map De.deStr ∨ a ∈ m.2
      · rw [if_pos hknown]
        refine ⟨?_, Iff.rfl⟩
        by_cases heq : name = a
        · subst heq
          rcases hknown with hlisted | hwhited
          · obtain ⟨t, ht⟩ := Option.isSome_iff_exists.mp (typeOf_isSome.mpr hlisted)
            simp [ht]
          · simp [hwhited]
        · rw [if_neg heq]
      · rw [if_neg hknown, typeOf_append]
        refine ⟨?_, Iff.rfl⟩
        push Not at hknown
        by_cases heq : name = a
        · subst heq
          simp [hknown.2]
        · simp [heq, Ne.symm heq]
    | false =>
      obtain ⟨b, rfl⟩ := exists_whName (hasWhPfx_of_not_isOrdinary hord)
      have hane : name ≠ whName b := ne_whName hn b
      simp only [Bool.false_eq_true, if_false, hane, stripWh_whName, whName_inj]
      cases whable with
      | false => simp
      | true =>
        simp only [if_true, true_and]
        by_cases heq : name = b
        · -- the whiteout of the name: the branch has no entry beside it
          subst heq
          have hnone := hapart rfl (by simp)
          rw [← hlookup, if_neg hane] at hnone
          rw [hnone]
          refine ⟨by simp, ?_⟩
          split_ifs with hmem <;> simp [hmem]
        · have hsame : (name ∈ if b ∈ m.2 then m.2 else b :: m.2) ↔ name ∈ m.2 := by
            split_ifs <;> simp [heq]
          simp [hsame, heq]

theorem lookup_filterMap {α β : Type*} {l : List String} {f : String → Option α} (g : α → β)
    (hl : f name ≠ none → name ∈ l) :
    (l.filterMap fun n => (f n).map fun x => (n, g x)).lookup name = (f name).map g := by
  induction l with
  | nil =>
    cases hf : f name with
    | none => rfl
    | some x => exact absurd (hl (by simp [hf])) (by simp)
  | cons a l ih =>
    by_cases ha : name = a
    · subst ha
      cases hf : f name with
      | none =>
        rw [List.filterMap_cons_none (by rw [hf]; rfl), ih (fun h => absurd hf h), hf]
      | some x => rw [List.filterMap_cons_some (by rw [hf]; rfl), List.lookup_cons_self]; rfl
    · have ih' := ih fun h => (List.mem_cons.mp (hl h)).resolve_left ha
      cases hf : f a with
      | none => rw [List.filterMap_cons_none (by rw [hf]; rfl), ih']
      | some x =>
        rw [List.filterMap_cons_some (by rw [hf]; rfl), List.lookup_cons,
          beq_eq_false_iff_ne.mpr ha]
        exact ih'

/-- A name of a directory is looked up in its listing. -/
theorem lookup_hReaddir (fs : Files) (hdot : name ≠ ".") (hdots : name ≠ "..") :
    (hReaddir fs dir).lookup name = (fs.get (dir ++ [name])).map kind := by
  rw [hReaddir, List.lookup_cons, beq_eq_false_iff_ne.mpr hdot]
  simp only [List.lookup_cons, beq_eq_false_iff_ne.mpr hdots]
  exact lookup_filterMap kind Files.mem_names.mpr

theorem mem_hReaddir {fs : Files} (hdot : name ≠ ".") (hdots : name ≠ "..") :
    name ∈ (hReaddir fs dir).map Prod.fst ↔ (fs.get (dir ++ [name])).isSome := by
  have hmem : name ∈ (hReaddir fs dir).map Prod.fst ↔ ((hReaddir fs dir).lookup name).isSome := by
    rw [List.lookup_isSome_iff]
    simp only [beq_iff_eq, List.mem_map]
    exact exists_congr fun p => and_congr_right fun _ => eq_comm
  rw [hmem, lookup_hReaddir fs hdot hdots, Option.isSome_map]

theorem whName_ne_dots (n : String) : whName n ≠ "." ∧ whName n ≠ ".." := by
  constructor
  all_goals
    intro h
    have hlist := congrArg String.toList h
    rw [toList_whName] at hlist
    simp at hlist

/-- **Over sound branches the first entry that no whiteout hides is listed.** -/
theorem typeOf_mergeAll (dir : Path) (hn : hasWhPfx name = false) (hne : name ≠ "")
    (hdot : name ≠ ".")
    (hdots : name ≠ "..") {brs : List (ℕ × Branch)} (hsound : SoundAll dir brs) (m : Merge) :
    typeOf (mergeAll dir brs m).1 name = (typeOf m.1 name).or
      (if name ∈ m.2 then none
        else (firstEntry dir name brs).map fun x => dType name (kind x)) := by
  induction brs generalizing m with
  | nil => simp [mergeAll, firstEntry]
  | cons x brs ih =>
    obtain ⟨i, br⟩ := x
    obtain ⟨hw, hw'⟩ := whName_ne_dots name
    have hapart : auBrWhable br = true → (br.files.get (dir ++ [whName name])).isSome →
        br.files.get (dir ++ [name]) = none := by
      intro hwhable hsome
      obtain ⟨y, hy⟩ := Option.isSome_iff_exists.mp hsome
      exact (hsound _ List.mem_cons_self hwhable name hn).apart y hy
    obtain ⟨htype, hwhite⟩ := typeOf_foldl hn hne (!brs.isEmpty && auBrWhable br)
      (l := hReaddir br.files dir) (fun hwhable hmem => by
        rw [lookup_hReaddir _ hdot hdots, hapart (Bool.and_eq_true _ _ ▸ hwhable).2
          ((mem_hReaddir hw hw').mp hmem)]
        rfl) m
    rw [mem_hReaddir hw hw'] at hwhite
    rw [lookup_hReaddir _ hdot hdots] at htype
    rw [mergeAll, ih (fun y hy => hsound y (List.mem_cons_of_mem _ hy)), htype]
    simp only [hwhite, firstEntry]
    by_cases hm : name ∈ m.2
    · simp [hm]
    · simp only [hm, false_or, if_false]
      cases hh : hides br dir name with
      | true =>
        -- the whiteout of the branch
        rw [hides, Bool.and_eq_true] at hh
        rw [hapart hh.1 hh.2]
        cases brs with
        | nil => simp [firstEntry]
        | cons y brs => simp [hh.1, hh.2]
      | false =>
        rw [hides, Bool.and_eq_false_iff] at hh
        have hnot : ¬ ((!brs.isEmpty && auBrWhable br) = true ∧
            (br.files.get (dir ++ [whName name])).isSome = true) := by
          rintro ⟨hwhable, hsome⟩
          rw [Bool.and_eq_true] at hwhable
          simp [hwhable.2, hsome] at hh
        rw [if_neg hnot, Option.or_assoc]
        congr 1
        cases br.files.get (dir ++ [name]) <;> simp

end Merge

/-! ## The tables and the blocks -/

/-- A name that is no longer than `NAME_MAX`, fits into a block and does not end it. -/
def Fits (sz : ℕ) (name : String) : Prop :=
  name ≠ "" ∧ name.utf8ByteSize ≤ 255 ∧ calcSize name.utf8ByteSize ≤ sz

instance (sz : ℕ) (name : String) : Decidable (Fits sz name) :=
  inferInstanceAs (Decidable (_ ∧ _ ∧ _))

section Refinement

variable (raw : Deblk) {num : ℕ} [NeZero num] {sz : ℕ} {dir : Path}

/-- The tables and the blocks hold what the lists hold. -/
structure FillvdirArg.Is (arg : FillvdirArg num) (sz : ℕ) (m : Merge) : Prop where
  filling : ∃ dess des, arg.vdir.Filling dess des ∧ dess.flatten ++ des = m.1
  deblkSz : arg.vdir.deblkSz = sz
  delist : ∀ n, arg.delist.test (auNameHash num) n = decide (n ∈ m.1.map De.deStr)
  whlist : ∀ n, arg.whlist.test (auNameHash num) n = decide (n ∈ m.2)

theorem fillvdir_merge {arg : FillvdirArg num} {m : Merge} (h : arg.Is sz m) (whable : Bool)
    {x : String × Kind} (hx : Fits sz x.1) :
    ∃ arg', fillvdir raw whable arg x = .ok arg' ∧ arg'.Is sz (mergeEntry whable m x) := by
  unfold fillvdir mergeEntry
  simp only [h.delist, h.whlist]
  cases hord : isOrdinary x.1 with
  | true =>
    by_cases hknown : x.1 ∈ m.1.map De.deStr ∨ x.1 ∈ m.2
    · have hknown' : (decide (x.1 ∈ m.1.map De.deStr) || decide (x.1 ∈ m.2)) = true := by
        simpa using hknown
      rw [if_pos rfl, if_pos rfl, if_pos hknown', if_pos hknown]
      exact ⟨arg, rfl, h⟩
    · have hknown' : (decide (x.1 ∈ m.1.map De.deStr) || decide (x.1 ∈ m.2)) = false := by
        simpa using hknown
      obtain ⟨dess, des, hfill, hflat⟩ := h.filling
      obtain ⟨v, dess', des', hv, hsz, hfill', hflat'⟩ :=
        appendDe_holds raw hfill ⟨dType x.1 x.2, x.1⟩ hx.1 (h.deblkSz ▸ hx.2.2)
      rw [if_pos rfl, if_pos rfl, hknown', if_neg hknown, if_neg Bool.false_ne_true, hv]
      refine ⟨_, rfl, ⟨dess', des', hfill', by rw [hflat', hflat]⟩,
        hsz.trans h.deblkSz, ?_, h.whlist⟩
      intro n
      by_cases hn : n = x.1 <;> simp [h.delist, hn]
  | false =>
    cases whable with
    | false => exact ⟨arg, rfl, h⟩
    | true =>
      by_cases hknown : stripWh x.1 ∈ m.2
      · refine ⟨arg, by simp [hknown], ?_⟩
        simpa [hknown] using h
      · refine ⟨{ arg with whlist := arg.whlist.add (auNameHash num) (stripWh x.1) }, by
          simp [hknown], ?_⟩
        simp only [Bool.false_eq_true, if_false, if_true, hknown]
        refine ⟨h.filling, h.deblkSz, h.delist, fun n => ?_⟩
        by_cases hn : n = stripWh x.1 <;> simp [h.whlist, hn]

/-- **The tables and the blocks do what the lists do.** -/
theorem readBranches_merge {brs : List (ℕ × Branch)}
    (hnames : ∀ x ∈ brs, ∀ y ∈ hReaddir x.2.files dir, Fits sz y.1) {arg : FillvdirArg num}
    {m : Merge} (h : arg.Is sz m) :
    ∃ arg', readBranches raw dir brs arg = .ok arg' ∧ arg'.Is sz (mergeAll dir brs m) := by
  induction brs generalizing arg m with
  | nil => exact ⟨arg, rfl, h⟩
  | cons x brs ih =>
    obtain ⟨i, br⟩ := x
    have hl := hnames _ List.mem_cons_self
    have hbranch : ∀ {l : List (String × Kind)} {arg : FillvdirArg num} {m : Merge} (w : Bool),
        (∀ y ∈ l, Fits sz y.1) → arg.Is sz m →
        ∃ arg', l.foldlM (fillvdir raw w) arg = .ok arg' ∧
          arg'.Is sz (l.foldl (mergeEntry w) m) := by
      intro l
      induction l with
      | nil => exact fun w _ h => ⟨_, rfl, h⟩
      | cons y l ihl =>
        intro arg m w hl h
        obtain ⟨arg₁, harg₁, h₁⟩ := fillvdir_merge raw h w (hl y List.mem_cons_self)
        obtain ⟨arg₂, harg₂, h₂⟩ := ihl w (fun z hz => hl z (List.mem_cons_of_mem _ hz)) h₁
        exact ⟨arg₂, by rw [List.foldlM_cons, harg₁]; exact harg₂, h₂⟩
    obtain ⟨arg₁, harg₁, h₁⟩ := hbranch (!brs.isEmpty && auBrWhable br) hl h
    obtain ⟨arg₂, harg₂, h₂⟩ := ih (fun y hy => hnames y (List.mem_cons_of_mem _ hy)) h₁
    exact ⟨arg₂, by rw [readBranches, harg₁]; exact harg₂, h₂⟩

/-- A directory whose names fit is read, and its blocks hold the entries of the lists. -/
theorem readVdir_spec (num : ℕ) [NeZero num] {brs : List (ℕ × Branch)} (hsz : calcSize 2 ≤ sz)
    (hnames : ∀ x ∈ brs, ∀ n ∈ x.2.files.names dir, Fits sz n) :
    ∃ (v : Vdir) (front : List (List De)) (last : List De),
      readVdir raw num sz brs dir = .ok { v with lastUl := 0, lastP := 0 } ∧
      v.Listing front last ∧ (front ++ [last]).flatten = (mergeAll dir brs ([], [])).1 := by
  have hsz' : calcSize 2 = 8 := rfl
  obtain ⟨v₀, hv₀, hsz₀, hfill₀⟩ := appendDeblk_spec raw
    (v := { deblk := [], deblkSz := sz, lastUl := 0, lastP := 0 })
    (by simpa [calcSize_zero, hsz'] using hsz) .nil (by simp : ∀ ds ∈ [], ds ≠ [])
  have hfits : ∀ x ∈ brs, ∀ y ∈ hReaddir x.2.files dir, Fits sz y.1 := by
    intro x hx y hy
    rw [hReaddir, List.mem_cons, List.mem_cons] at hy
    rcases hy with rfl | rfl | hy
    · exact ⟨by decide, by decide, hsz⟩
    · exact ⟨by decide, by decide, hsz⟩
    · obtain ⟨n, hn, hm⟩ := List.mem_filterMap.mp hy
      obtain ⟨z, -, rfl⟩ := Option.map_eq_some_iff.mp hm
      exact hnames x hx n hn
  have hstart : (⟨v₀, .empty, .empty⟩ : FillvdirArg num).Is sz ([], []) :=
    ⟨⟨[], [], hfill₀, rfl⟩, hsz₀, by simp, by simp⟩
  obtain ⟨arg, harg, his⟩ := readBranches_merge raw hfits hstart
  obtain ⟨front, last, hfill, hflat⟩ := his.filling
  refine ⟨arg.vdir, front, last, ?_, hfill.toListing, by rw [← hflat]; simp⟩
  simp only [readVdir, allocVdir, hv₀, bind, Except.bind, harg, pure, Except.pure]

end Refinement

/-! ## Listings and lookups -/

section Lookup

variable (raw : Deblk) (num : ℕ) [NeZero num] {sz : ℕ} {brs : List Branch} {p : Path} {d : Dentry}

/-- **A directory lists each name once, and exactly the names that a lookup finds**, with the type
of what it finds. -/
theorem readdir_lookup (hp : resolve brs p = .ok d) (hdir : d.node = some .dir)
    (hsound : SoundAll p (d.dirs brs)) (hsz : calcSize 2 ≤ sz)
    (hnames : ∀ br ∈ brs, ∀ n ∈ br.files.names p, Fits sz n) :
    ∃ v, readVdir raw num sz (d.dirs brs) p = .ok v ∧ ((listDir v).map De.deStr).Nodup ∧
      ∀ n, n ≠ "" → n ≠ "." → n ≠ ".." → hasWhPfx n = false → n.utf8ByteSize ≤ maxNameLen →
        ∃ d', aufsLookup brs p d n = .ok d' ∧
          ∀ t, ⟨t, n⟩ ∈ listDir v ↔ ∃ x, d'.node = some x ∧ t = some (kind x) := by
  have hnames' : ∀ x ∈ d.dirs brs, ∀ n ∈ x.2.files.names p, Fits sz n :=
    fun x hx => hnames x.2 (List.mem_of_getElem? (mem_dirs hx))
  obtain ⟨v, front, last, hv, hlisting, hflat⟩ :=
    readVdir_spec raw num hsz hnames'
  refine ⟨_, hv, ?_⟩
  rw [hlisting.listDir_eq, hflat]
  have hnodup := nodup_mergeAll p (d.dirs brs) (m := ([], [])) (by simp)
  refine ⟨hnodup, fun n hne hdot hdots hn hlen => ?_⟩
  obtain ⟨d', hd', hnode⟩ := exists_auLkupDentry p hn hsound (dirs_ne_nil hp hdir)
  refine ⟨d', ?_, fun t => ?_⟩
  · simp [aufsLookup, Nat.not_lt.mpr hlen, hd']
  · have htype := typeOf_mergeAll p hn hne hdot hdots hsound ([], [])
    have hempty : typeOf [] n = none := rfl
    rw [mem_iff_typeOf hnodup, htype, hempty, Option.none_or, if_neg List.not_mem_nil, ← hnode,
      Option.map_eq_some_iff]
    simp only [dType, if_neg (Nat.not_lt.mpr hlen), eq_comm]

/-- A mount of a writable branch with a whiteout over a read-only branch. -/
def sampleBranches : List Branch :=
  [{ perm := .rw, files := ((∅ : Files).insert [".wh.a"] (.file [])).insert ["b"] (.file []) },
    { perm := .rr,
      files := (((∅ : Files).insert ["a"] (.file [])).insert ["b"] .dir).insert ["c"] .dir }]

theorem get_sample {p : Path} {x : Node} (h : Files.get
    (((∅ : Files).insert [".wh.a"] (.file [])).insert ["b"] (.file [])) p = some x) :
    p = [] ∨ p = ["b"] ∨ p = [".wh.a"] := by
  by_contra hnot
  push Not at hnot
  rw [Files.get_insert_ne _ _ hnot.2.1, Files.get_insert_ne _ _ hnot.2.2,
    Files.get_of_ne_nil _ hnot.1] at h
  cases h

theorem soundAll_sample : SoundAll [] ((rootDentry sampleBranches).dirs sampleBranches) := by
  have hsingle : ∀ {dir : Path} {n a : String}, dir ++ [n] = [a] → dir = [] ∧ n = a := by
    intro dir n a h
    have h' : dir ++ [n] = [] ++ [a] := h
    obtain ⟨hdir, hn⟩ := List.append_inj' h' rfl
    exact ⟨hdir, List.singleton_inj.mp hn⟩
  have hwhite : ∀ {dir : Path} {n : String} {x : Node}, Files.get
      (((∅ : Files).insert [".wh.a"] (.file [])).insert ["b"] (.file [])) (dir ++ [whName n]) =
        some x → dir = [] ∧ n = "a" := by
    intro dir n x h
    rcases get_sample h with h | h | h
    · simp at h
    · have hb := (hsingle h).2 ▸ hasWhPfx_whName n
      exact absurd hb (by decide)
    · exact ⟨(hsingle h).1, whName_inj.mp (hsingle h).2⟩
  intro x hx hw n _
  have hdirs : x ∈ [(0, sampleBranches[0]), (1, sampleBranches[1])] := hx
  rw [List.mem_cons, List.mem_singleton] at hdirs
  rcases hdirs with rfl | rfl
  · refine ⟨fun x h => ?_, fun x h => ?_, fun x h => ?_⟩
    · obtain ⟨-, rfl⟩ := hwhite h
      rw [← Option.some.inj ((rfl : _ = some (Node.file [])).symm.trans h)]
      rfl
    · obtain ⟨-, rfl⟩ := hwhite h
      rfl
    · exact absurd (hwhite h).1 (by simp)
  · exact absurd hw (by decide)

theorem readdir_lookup_sample :
    ∃ v, readVdir (fun _ => ⟨none, ""⟩) 32 512
        ((rootDentry sampleBranches).dirs sampleBranches) [] = .ok v ∧
      ((listDir v).map De.deStr).Nodup ∧
      ∃ d, aufsLookup sampleBranches [] (rootDentry sampleBranches) "a" = .ok d ∧
        ∀ t, ⟨t, "a"⟩ ∈ listDir v ↔ ∃ x, d.node = some x ∧ t = some (kind x) := by
  have hroot : resolve sampleBranches [] = .ok (rootDentry sampleBranches) := rfl
  obtain ⟨v, hv, hnodup, hall⟩ := readdir_lookup (fun _ => ⟨none, ""⟩) 32 hroot rfl soundAll_sample
    (by decide : calcSize 2 ≤ 512) (by decide)
  exact ⟨v, hv, hnodup, hall "a" (by decide) (by decide) (by decide) (by decide) (by decide)⟩

/-- **A directory is read in portions without loss or repetition**: whatever the callers take at a
time, and wherever they return to, they get the entries of the listing as from a list with an
index. -/
theorem readdir_portions {brs : List (ℕ × Branch)} {dir : Path} (hsz : calcSize 2 ≤ sz)
    (hnames : ∀ x ∈ brs, ∀ n ∈ x.2.files.names dir, Fits sz n) {σ : Type}
    (filldir : σ → De → ℕ → Option σ) :
    ∃ v l last, readVdir raw num sz brs dir = .ok v ∧ l.map Prod.fst = listDir v ∧
      ∀ ops : List (Op σ ℕ), (∀ j, .lseek j ∈ ops → j ≤ l.length) →
        readRun filldir v 0 (ops.map (Op.map fun j => posOf last (l.drop j))) =
          cursorRun filldir l 0 ops := by
  obtain ⟨v, front, last, hv, hlisting, -⟩ := readVdir_spec raw num hsz hnames
  refine ⟨_, stampAll v.deblkSz 0 (front ++ [last]), size last + v.deblkSz * front.length, hv, ?_,
    fun ops hops => ?_⟩
  · rw [hlisting.listDir_eq, map_fst_stampAll]
  · have hrun := readRun_eq filldir (hlisting.of_ready hlisting.ready_start rfl)
      hlisting.ready_start rfl rfl (Nat.zero_le _) hops
    rw [List.drop_zero, hlisting.posOf_start] at hrun
    exact hrun

theorem readdir_portions_sample :
    ∃ v l last, readVdir (fun _ => ⟨none, ""⟩) 32 512
        ((rootDentry sampleBranches).dirs sampleBranches) [] = .ok v ∧ l.map Prod.fst = listDir v ∧
      ∀ ops : List (Op ℕ ℕ), (∀ j, .lseek j ∈ ops → j ≤ l.length) →
        readRun (fun n _ _ => if n = 0 then none else some (n - 1)) v 0
            (ops.map (Op.map fun j => posOf last (l.drop j))) =
          cursorRun (fun n _ _ => if n = 0 then none else some (n - 1)) l 0 ops :=
  readdir_portions _ _ (by decide) (by decide) _

end Lookup

end Meta3dr.Aufs
