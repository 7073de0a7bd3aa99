import Meta3dr.Aufs.Lookup

/-!
# The blocks of a directory listing

A directory of the union is read once into blocks of memory, in which the entries follow one
another, each with its name and padded to a word. An entry with an empty name ends a block that has
room for it. The reader keeps a pointer into the blocks and moves it to the position of the file.

## Main definitions

* `Vdir`: the blocks, with the last pointer
* `appendDe`: an entry added to the blocks
* `seekVdir`, `auVdirFillDe`: the pointer moved to the position of the file, and entries handed out
* `Holds`, `stamp`: the entries a vdir holds, and the positions handed out with them

## Main results

* `appendDe_holds`: an entry is added behind the others
* `auVdirFillDe_eq`: from the position of an entry, the reader hands out that entry and those after
-/

namespace Meta3dr.Aufs

/-- `struct au_vdir_de`: the type of an entry, where it is known, and its name. -/
structure De where
  deType : Option Kind
  deStr : String

/-- `calc_size`: the bytes of an entry with a name of the given length. -/
def calcSize (nlen : ℕ) : ℕ := (6 + nlen + 3) / 4 * 4

/-- The bytes of an entry. -/
def De.size (de : De) : ℕ := calcSize de.deStr.utf8ByteSize

theorem calcSize_zero : calcSize 0 = 8 := rfl

theorem calcSize_zero_le (n : ℕ) : calcSize 0 ≤ calcSize n := by
  simp only [calcSize]
  omega

/-- A block of memory: what it holds at an offset. -/
abbrev Deblk := ℕ → De

/-- `struct au_vdir`: the blocks, their size, and the last pointer, a block and an offset in it. -/
structure Vdir where
  deblk : List Deblk
  deblkSz : ℕ
  lastUl : ℕ
  lastP : ℕ

namespace Vdir

/-- The entry at the last pointer. -/
def de (v : Vdir) : De := (v.deblk.getD v.lastUl fun _ => ⟨none, ""⟩) v.lastP

/-- The entry at the last pointer overwritten. -/
def setDe (v : Vdir) (de : De) : Vdir :=
  { v with deblk := v.deblk.modify v.lastUl fun blk => Function.update blk v.lastP de }

@[simp] theorem setDe_deblkSz (v : Vdir) (de : De) : (v.setDe de).deblkSz = v.deblkSz := rfl

@[simp] theorem setDe_lastP (v : Vdir) (de : De) : (v.setDe de).lastP = v.lastP := rfl

/-- `set_deblk_end` at the last pointer; without room for it there is no mark. -/
def setDeblkEnd (v : Vdir) : Option Vdir :=
  if calcSize 0 ≤ v.deblkSz - v.lastP then some (v.setDe { v.de with deStr := "" }) else none

/-- `is_deblk_end` at the last pointer. -/
def isDeblkEnd (v : Vdir) : Bool :=
  if calcSize 0 ≤ v.deblkSz - v.lastP then v.de.deStr = "" else true

end Vdir

section Append

-- a block as it is when it is allocated
variable (raw : Deblk)

/-- `append_deblk`. -/
def appendDeblk (v : Vdir) : Except Errno Vdir :=
  let v := { v with deblk := v.deblk ++ [raw], lastUl := v.deblk.length, lastP := 0 }
  match v.setDeblkEnd with
  | some v => .ok v
  | none => .error .eperm

/-- `alloc_vdir`, with the size of the blocks. -/
def allocVdir (deblkSz : ℕ) : Except Errno Vdir :=
  appendDeblk raw { deblk := [], deblkSz, lastUl := 0, lastP := 0 }

/-- `append_de`. -/
def appendDe (v : Vdir) (de : De) : Except Errno Vdir := do
  let v ← if v.deblkSz - v.lastP < de.size then appendDeblk raw v else pure v
  let v := v.setDe de
  let v := { v with lastP := v.lastP + de.size }
  match v.setDeblkEnd with
  | some v => return v
  | none => appendDeblk raw v

end Append

/-! ## Reading -/

/-- `calc_offset`. -/
def calcOffset (v : Vdir) : ℕ := v.lastP + v.deblkSz * v.lastUl

/-- The inner loop of `seek_vdir`: on to the end of the block, or to the position. -/
def seekWalk (fPos : ℕ) (v : Vdir) (offset : ℕ) : Vdir :=
  if v.isDeblkEnd = false ∧ offset < fPos then
    seekWalk fPos { v with lastP := v.lastP + v.de.size } (offset + v.de.size)
  else v
termination_by fPos - offset
decreasing_by
  have hsize := calcSize_zero_le v.de.deStr.utf8ByteSize
  simp only [calcSize_zero] at hsize
  simp only [De.size]
  omega

/-- `seek_vdir`: whether there is an entry at the position or after it, and the vdir with its last
pointer there. -/
def seekVdir (fPos : ℕ) (v : Vdir) : Bool × Vdir :=
  if fPos = calcOffset v then (true, v)
  else
    let v₀ := { v with lastUl := 0, lastP := 0 }
    if fPos = 0 then (true, v₀)
    else
      let ul := fPos / v.deblkSz
      let found := (List.range' ul (v.deblk.length - ul)).findSome? fun ul =>
        let v := seekWalk fPos { v with lastUl := ul, lastP := 0 } (v.deblkSz * ul)
        if v.isDeblkEnd then none else some v
      (found.isSome, found.getD v₀)

section Fill

-- the caller's function takes an entry with its position, or refuses it
variable {σ : Type*} (filldir : σ → De → ℕ → Option σ)

/-- The loops of `au_vdir_fill_de`. -/
def fillLoop (v : Vdir) (fPos : ℕ) (s : σ) : Vdir × ℕ × σ :=
  if h : v.isDeblkEnd then
    if v.lastUl + 1 < v.deblk.length then
      fillLoop { v with lastUl := v.lastUl + 1, lastP := 0 } (v.deblkSz * (v.lastUl + 1)) s
    else (v, fPos, s)
  else
    match filldir s v.de fPos with
    | none => (v, fPos, s)
    | some s => fillLoop { v with lastP := v.lastP + v.de.size } (fPos + v.de.size) s
termination_by (v.deblk.length - v.lastUl, v.deblkSz - v.lastP)
decreasing_by
  · exact Prod.Lex.left _ _ (by omega)
  · refine Prod.Lex.right _ ?_
    have hsize := calcSize_zero_le v.de.deStr.utf8ByteSize
    have hroom : calcSize 0 ≤ v.deblkSz - v.lastP := by
      by_contra hlt
      simp [Vdir.isDeblkEnd, hlt] at h
    simp only [calcSize_zero] at hsize hroom
    simp only [De.size]
    omega

/-- `au_vdir_fill_de`: the vdir and the position afterwards, and what the caller made of it. -/
def auVdirFillDe (v : Vdir) (fPos : ℕ) (s : σ) : Vdir × ℕ × σ :=
  match seekVdir fPos v with
  | (false, v) => (v, fPos, s)
  | (true, v) => fillLoop filldir v fPos s

end Fill

/-! ## What a vdir holds -/

/-- The bytes of a row of entries. -/
def size (des : List De) : ℕ := (des.map De.size).sum

@[simp] theorem size_nil : size [] = 0 := rfl

@[simp] theorem size_cons (de : De) (des : List De) : size (de :: des) = de.size + size des := by
  simp [size]

@[simp] theorem size_append (des des' : List De) : size (des ++ des') = size des + size des' := by
  simp [size]

theorem De.size_pos (de : De) : 8 ≤ de.size := calcSize_zero_le _

/-- Behind an offset, a block holds these entries and then ends. -/
def Holds (sz : ℕ) (blk : Deblk) : ℕ → List De → Prop
  | p, [] => calcSize 0 ≤ sz - p → (blk p).deStr = ""
  | p, de :: des => blk p = de ∧ de.deStr ≠ "" ∧ p + de.size ≤ sz ∧ Holds sz blk (p + de.size) des

/-- The blocks of a vdir hold these entries. -/
def Vdir.HoldsAll (v : Vdir) (dess : List (List De)) : Prop :=
  List.Forall₂ (fun blk des => Holds v.deblkSz blk 0 des) v.deblk dess

section Holds

variable {sz : ℕ} {blk : Deblk}

theorem Holds.drop {p : ℕ} {pre des : List De} (h : Holds sz blk p (pre ++ des)) :
    Holds sz blk (p + size pre) des := by
  induction pre generalizing p with
  | nil => simpa using h
  | cons de pre ih =>
    obtain ⟨-, -, -, hrest⟩ := h
    rw [size_cons, ← add_assoc]
    exact ih hrest

/-- What is written at the end of the entries leaves them as they are. -/
theorem Holds.append {p : ℕ} {des des' : List De} {blk' : Deblk} (h : Holds sz blk p des)
    (hsame : ∀ o < p + size des, blk' o = blk o) (hrest : Holds sz blk' (p + size des) des') :
    Holds sz blk' p (des ++ des') := by
  induction des generalizing p with
  | nil => simpa using hrest
  | cons de des ih =>
    obtain ⟨hde, hne, hfit, hdes⟩ := h
    rw [size_cons, ← add_assoc] at hsame hrest
    have hpos := de.size_pos
    refine ⟨?_, hne, hfit, ih hdes hsame hrest⟩
    rw [hsame p (by omega), hde]

end Holds

/-- The blocks of a vdir hold these entries, and the last block has room for a mark. -/
structure Vdir.Listing (v : Vdir) (dess : List (List De)) (des : List De) : Prop where
  holds : v.HoldsAll (dess ++ [des])
  full : ∀ ds ∈ dess, ds ≠ []
  room : size des + calcSize 0 ≤ v.deblkSz

/-- The last pointer is behind the entries. -/
structure Vdir.Filling (v : Vdir) (dess : List (List De)) (des : List De) : Prop
    extends v.Listing dess des where
  ul : v.lastUl = dess.length
  p : v.lastP = size des

section Append

variable (raw : Deblk) {v : Vdir} {dess : List (List De)} {des : List De}

theorem Vdir.HoldsAll.length (h : v.HoldsAll dess) : v.deblk.length = dess.length :=
  List.Forall₂.length_eq h

theorem Vdir.HoldsAll.split {back : List (List De)} (h : v.HoldsAll (dess ++ des :: back)) :
    ∃ bs b bs', v.deblk = bs ++ b :: bs' ∧ bs.length = dess.length ∧
      List.Forall₂ (fun blk des => Holds v.deblkSz blk 0 des) bs dess ∧ Holds v.deblkSz b 0 des ∧
      List.Forall₂ (fun blk des => Holds v.deblkSz blk 0 des) bs' back := by
  have hfront := List.forall₂_take_append _ _ _ h
  have hback := List.forall₂_drop_append _ _ _ h
  obtain ⟨b, bs', hb, hbs', hdrop⟩ := List.forall₂_cons_right_iff.mp hback
  exact ⟨_, b, bs', by rw [← hdrop, List.take_append_drop], hfront.length_eq, hfront, hb, hbs'⟩

theorem modify_append_cons (bs : List Deblk) (b : Deblk) (bs' : List Deblk) (f : Deblk → Deblk) :
    (bs ++ b :: bs').modify bs.length f = bs ++ f b :: bs' := by
  induction bs with
  | nil => rfl
  | cons b₀ bs ih => simp [ih]

theorem appendDeblk_spec (hsz : calcSize 0 ≤ v.deblkSz) (h : v.HoldsAll dess)
    (hfull : ∀ ds ∈ dess, ds ≠ []) :
    ∃ v', appendDeblk raw v = .ok v' ∧ v'.deblkSz = v.deblkSz ∧ v'.Filling dess [] := by
  simp only [appendDeblk, Vdir.setDeblkEnd, Nat.sub_zero, hsz, if_true]
  refine ⟨_, rfl, rfl, ⟨?_, hfull, by simpa using hsz⟩, h.length, rfl⟩
  simp only [Vdir.setDe, modify_append_cons]
  refine List.rel_append h (.cons ?_ .nil)
  intro
  simp [Vdir.de]

/-- The end of the entries is marked, or there is no room for a mark and a block is added. -/
theorem setDeblkEnd_spec {bs : List Deblk} {b : Deblk} (heq : v.deblk = bs ++ [b])
    (hul : v.lastUl = dess.length) (hp : v.lastP = size des) (hsz : calcSize 0 ≤ v.deblkSz)
    (hfull : ∀ ds ∈ dess, ds ≠ []) (hne : des ≠ [])
    (hbs : List.Forall₂ (fun blk des => Holds v.deblkSz blk 0 des) bs dess)
    (hb : ∀ b', (∀ o < v.lastP, b' o = b o) →
      (calcSize 0 ≤ v.deblkSz - v.lastP → (b' v.lastP).deStr = "") → Holds v.deblkSz b' 0 des) :
    ∃ v' dess' des', (match v.setDeblkEnd with
        | some v => .ok v
        | none => appendDeblk raw v) = (.ok v' : Except Errno Vdir) ∧
      v'.deblkSz = v.deblkSz ∧ v'.Filling dess' des' ∧
      dess'.flatten ++ des' = dess.flatten ++ des := by
  have hul' : v.lastUl = bs.length := by rw [hul, hbs.length_eq]
  by_cases hend : calcSize 0 ≤ v.deblkSz - v.lastP
  · refine ⟨v.setDe { v.de with deStr := "" }, dess, des, by simp [Vdir.setDeblkEnd, hend], rfl,
      ⟨⟨?_, hfull, ?_⟩, hul, hp⟩, rfl⟩
    swap
    · rw [calcSize_zero, hp] at hend
      rw [calcSize_zero, Vdir.setDe_deblkSz]
      omega
    simp only [Vdir.HoldsAll, Vdir.setDe, heq, hul', modify_append_cons]
    refine List.rel_append hbs (.cons (hb _ (fun o ho => ?_) fun _ => ?_) .nil)
    · exact Function.update_of_ne ho.ne ..
    · rw [Function.update_self]
  · have hall : v.HoldsAll (dess ++ [des]) := by
      rw [Vdir.HoldsAll, heq]
      exact List.rel_append hbs (.cons (hb b (fun _ _ => rfl) fun h => absurd h hend) .nil)
    obtain ⟨v', hv', hsz', hfill⟩ := appendDeblk_spec raw hsz hall
      (by simpa [or_imp, forall_and, hne] using hfull)
    exact ⟨v', _, [], by simp [Vdir.setDeblkEnd, hend, hv'], hsz', hfill, by simp⟩

/-- An entry is written where there is room for it. -/
theorem Vdir.Filling.write (h : v.Filling dess des) {de : De} (hne : de.deStr ≠ "")
    (hroom : de.size ≤ v.deblkSz - v.lastP) :
    ∃ v' dess' des', (match ({ v.setDe de with lastP := v.lastP + de.size } : Vdir).setDeblkEnd with
        | some v => .ok v
        | none => appendDeblk raw { v.setDe de with lastP := v.lastP + de.size }) =
          (.ok v' : Except Errno Vdir) ∧
      v'.deblkSz = v.deblkSz ∧ v'.Filling dess' des' ∧
      dess'.flatten ++ des' = dess.flatten ++ des ++ [de] := by
  obtain ⟨⟨hholds, hfull, hmark⟩, hul, hp⟩ := h
  obtain ⟨bs, b, bs', heq, hlen, hbs, hb, hbs'⟩ := hholds.split
  obtain rfl := List.forall₂_nil_right_iff.mp hbs'
  rw [calcSize_zero] at hmark
  have hpos := de.size_pos
  have hset : (v.setDe de).deblk = bs ++ [Function.update b v.lastP de] := by
    rw [Vdir.setDe, heq, hul, ← hlen, modify_append_cons]
  obtain ⟨v', dess', des', hv', hsz, hfill, hflat⟩ :=
    setDeblkEnd_spec raw (v := { v.setDe de with lastP := v.lastP + de.size }) hset hul
      (by simp [hp] : _ = size (des ++ [de])) (by simp only [Vdir.setDe, calcSize_zero]; omega)
      hfull (by simp) hbs fun b' hsame hend => by
        refine hb.append (fun o ho => ?_) ⟨?_, hne, ?_, ?_⟩
        · rw [Nat.zero_add, ← hp] at ho
          rw [hsame o (by simp only; omega), Function.update_of_ne ho.ne]
        · rw [Nat.zero_add, ← hp, hsame _ (by simp only; omega), Function.update_self]
        · rw [Nat.zero_add, ← hp]
          omega
        · rw [Nat.zero_add, ← hp]
          exact hend
  exact ⟨v', dess', des', hv', hsz, hfill, by simpa using hflat⟩

/-- **An entry is added behind the others**, if a block can hold it. -/
theorem appendDe_holds (h : v.Filling dess des) (de : De) (hne : de.deStr ≠ "")
    (hfit : de.size ≤ v.deblkSz) :
    ∃ v' dess' des', appendDe raw v de = .ok v' ∧ v'.deblkSz = v.deblkSz ∧
      v'.Filling dess' des' ∧ dess'.flatten ++ des' = dess.flatten ++ des ++ [de] := by
  by_cases hroom : v.deblkSz - v.lastP < de.size
  · have hdes : des ≠ [] := by
      rintro rfl
      rw [h.p, size_nil] at hroom
      omega
    obtain ⟨v₁, hv₁, hsz₁, hfill⟩ := appendDeblk_spec raw
      ((calcSize_zero_le _).trans hfit) h.holds (by simpa [or_imp, forall_and, hdes] using h.full)
    obtain ⟨v', dess', des', hv', hszv', hfill', hflat⟩ := hfill.write raw hne
      (by rw [hfill.p, size_nil, hsz₁]; exact hfit)
    refine ⟨v', dess', des', ?_, hszv'.trans hsz₁, hfill', by simpa using hflat⟩
    simpa [appendDe, hroom, hv₁, bind, Except.bind, pure, Except.pure] using hv'
  · obtain ⟨v', dess', des', hv', hszv', hfill', hflat⟩ := h.write raw hne (by omega)
    refine ⟨v', dess', des', ?_, hszv', hfill', hflat⟩
    simpa [appendDe, hroom, bind, Except.bind, pure, Except.pure] using hv'

end Append

/-! ## What the reader hands out -/

/-- Entries with their positions, from a position on. -/
def stamp : ℕ → List De → List (De × ℕ)
  | _, [] => []
  | p, de :: des => (de, p) :: stamp (p + de.size) des

/-- The entries of the blocks with their positions, from a block on. -/
def stampAll (sz : ℕ) : ℕ → List (List De) → List (De × ℕ)
  | _, [] => []
  | ul, des :: dess => stamp (sz * ul) des ++ stampAll sz (ul + 1) dess

/-- What the caller takes of a row of entries: how many, and what it made of them. -/
def feed {σ : Type*} (filldir : σ → De → ℕ → Option σ) : List (De × ℕ) → σ → ℕ × σ
  | [], s => (0, s)
  | (de, p) :: l, s =>
    match filldir s de p with
    | none => (0, s)
    | some s => ((feed filldir l s).1 + 1, (feed filldir l s).2)

/-- The last pointer is at the entries `des` of its block, behind the entries `pre`. -/
structure Vdir.At (v : Vdir) (front : List (List De)) (pre des : List De)
    (back : List (List De)) : Prop where
  holds : v.HoldsAll (front ++ (pre ++ des) :: back)
  ul : v.lastUl = front.length
  p : v.lastP = size pre

/-- The entries behind the last pointer. -/
def Vdir.rest (v : Vdir) (des : List De) (back : List (List De)) : List (De × ℕ) :=
  stamp (calcOffset v) des ++ stampAll v.deblkSz (v.lastUl + 1) back

namespace Vdir.At

variable {v : Vdir} {front back : List (List De)} {pre des : List De} {de : De}

theorem exists_deblk (h : v.At front pre des back) :
    ∃ b, v.deblk[v.lastUl]? = some b ∧ Holds v.deblkSz b v.lastP des := by
  obtain ⟨bs, b, bs', heq, hlen, -, hb, -⟩ := h.holds.split
  refine ⟨b, ?_, ?_⟩
  · rw [heq, h.ul, ← hlen]
    simp
  · simpa [h.p] using hb.drop

theorem isDeblkEnd_nil (h : v.At front pre [] back) : v.isDeblkEnd = true := by
  obtain ⟨b, hb, hholds⟩ := h.exists_deblk
  simp only [Vdir.isDeblkEnd, Vdir.de, List.getD_eq_getElem?_getD, hb, Option.getD_some]
  split_ifs with hroom
  · exact decide_eq_true (hholds hroom)
  · rfl

theorem isDeblkEnd_cons (h : v.At front pre (de :: des) back) :
    v.isDeblkEnd = false ∧ v.de = de := by
  obtain ⟨b, hb, hde, hne, hfit, -⟩ := h.exists_deblk
  have hsize := de.size_pos
  have heq : v.de = de := by
    simp only [Vdir.de, List.getD_eq_getElem?_getD, hb, Option.getD_some, hde]
  refine ⟨?_, heq⟩
  rw [Vdir.isDeblkEnd, heq, if_pos (by rw [calcSize_zero]; omega)]
  exact decide_eq_false hne

theorem next (h : v.At front pre (de :: des) back) :
    ({ v with lastP := v.lastP + de.size } : Vdir).At front (pre ++ [de]) des back :=
  ⟨by simpa [Vdir.HoldsAll] using h.holds, h.ul, by simp [h.p]⟩

theorem nextDeblk (h : v.At front pre [] (des :: back)) :
    ({ v with lastUl := v.lastUl + 1, lastP := 0 } : Vdir).At (front ++ [pre]) [] des back :=
  ⟨by simpa [Vdir.HoldsAll] using h.holds, by simp [h.ul], rfl⟩

theorem length (h : v.At front pre des back) :
    v.deblk.length = v.lastUl + 1 + back.length := by
  rw [h.holds.length, h.ul]
  simp
  omega

end Vdir.At

section Read

variable {σ : Type*} (filldir : σ → De → ℕ → Option σ) {v : Vdir} {dess : List (List De)}

/-- The last pointer is where a reader may have left it, with these entries behind it. -/
def Vdir.Ready (v : Vdir) (dess : List (List De)) (l : List (De × ℕ)) : Prop :=
  ∃ front pre des back, v.At front pre des back ∧ dess = front ++ (pre ++ des) :: back ∧
    (des = [] → back = []) ∧ l = v.rest des back

/-- The loops hand out what the caller takes of the entries behind the last pointer. -/
theorem fillLoop_spec {front back : List (List De)} {pre des : List De}
    (h : v.At front pre des back) {fPos : ℕ} (hpos : fPos = calcOffset v) (s : σ) :
    ∃ v', fillLoop filldir v fPos s =
        (v', calcOffset v', (feed filldir (v.rest des back) s).2) ∧ v'.deblkSz = v.deblkSz ∧
      v'.Ready (front ++ (pre ++ des) :: back)
        ((v.rest des back).drop (feed filldir (v.rest des back) s).1) := by
  fun_induction fillLoop filldir v fPos s generalizing front pre des back with
  | case1 v fPos s hend hmore ih =>
    -- on to the next block
    subst hpos
    cases des with
    | cons de des =>
      rw [h.isDeblkEnd_cons.1] at hend
      cases hend
    | nil =>
      cases back with
      | nil =>
        rw [h.length] at hmore
        simp at hmore
      | cons des back =>
        obtain ⟨v', hv', hsz, hready⟩ := ih h.nextDeblk (by simp [calcOffset])
        have hrest : v.rest [] (des :: back) =
            Vdir.rest { v with lastUl := v.lastUl + 1, lastP := 0 } des back := by
          simp [Vdir.rest, stamp, stampAll, calcOffset]
        rw [hrest]
        refine ⟨v', hv', hsz, ?_⟩
        simpa using hready
  | case2 v fPos s hend hlast =>
    -- the end of the listing
    subst hpos
    cases des with
    | cons de des =>
      rw [h.isDeblkEnd_cons.1] at hend
      cases hend
    | nil =>
      cases back with
      | nil =>
        refine ⟨v, rfl, rfl, front, pre, [], [], h, rfl, fun _ => rfl, ?_⟩
        simp [Vdir.rest, stamp, stampAll]
      | cons des back =>
        rw [h.length, List.length_cons] at hlast
        omega
  | case3 v fPos s hend hnone =>
    -- the caller refuses the entry
    subst hpos
    cases des with
    | nil => exact absurd h.isDeblkEnd_nil hend
    | cons de des =>
      rw [h.isDeblkEnd_cons.2] at hnone
      have hfeed : feed filldir (v.rest (de :: des) back) s = (0, s) := by
        simp [Vdir.rest, stamp, feed, hnone]
      rw [hfeed]
      exact ⟨v, rfl, rfl, front, pre, de :: des, back, h, rfl, by simp, rfl⟩
  | case4 v fPos s hend s' hsome ih =>
    subst hpos
    cases des with
    | nil => exact absurd h.isDeblkEnd_nil hend
    | cons de des =>
      rw [h.isDeblkEnd_cons.2] at hsome ih ⊢
      have hoff : calcOffset v + de.size = calcOffset { v with lastP := v.lastP + de.size } := by
        simp only [calcOffset]
        omega
      obtain ⟨v', hv', hsz, hready⟩ := ih h.next hoff
      have hrest : v.rest (de :: des) back =
          (de, calcOffset v) :: Vdir.rest { v with lastP := v.lastP + de.size } des back := by
        simp only [Vdir.rest, stamp, List.cons_append, hoff]
      simp only [hrest, feed, hsome]
      refine ⟨v', hv', hsz, ?_⟩
      simpa using hready

/-- The walk within a block comes to the position of an entry. -/
theorem seekWalk_spec {front back : List (List De)} {pre mid des : List De}
    (h : v.At front pre (mid ++ des) back) {fPos offset : ℕ} (hoff : offset = calcOffset v)
    (hpos : fPos = offset + size mid) :
    seekWalk fPos v offset = { v with lastP := v.lastP + size mid } ∧
      (seekWalk fPos v offset).At front (pre ++ mid) des back := by
  induction mid generalizing v pre offset with
  | nil =>
    rw [seekWalk, if_neg (by simp [hpos])]
    exact ⟨rfl, by simpa using h⟩
  | cons de mid ih =>
    obtain ⟨hend, hde⟩ := h.isDeblkEnd_cons
    have hsize := de.size_pos
    rw [size_cons] at hpos
    rw [seekWalk, if_pos ⟨hend, by omega⟩, hde]
    obtain ⟨heq, hat⟩ := ih h.next (by simp only [hoff, calcOffset]; omega :
      offset + de.size = _) (by omega)
    refine ⟨?_, by simpa using hat⟩
    rw [heq, size_cons]
    simp only [Vdir.mk.injEq, true_and]
    omega

theorem size_eq_zero {des : List De} (h : size des = 0) : des = [] := by
  cases des with
  | nil => rfl
  | cons de des =>
    have hsize := de.size_pos
    rw [size_cons] at h
    omega

theorem eq_of_size_eq {pre pre' des des' : List De} (h : pre ++ des = pre' ++ des')
    (hsize : size pre = size pre') : pre = pre' ∧ des = des' := by
  rcases List.append_eq_append_iff.mp h with ⟨mid, rfl, rfl⟩ | ⟨mid, rfl, rfl⟩
  all_goals
    rw [size_append] at hsize
    obtain rfl := size_eq_zero (by omega : size mid = 0)
    simp

theorem eq_of_mul_add_eq {sz a b p q : ℕ} (hp : p < sz) (hq : q < sz)
    (h : p + sz * a = q + sz * b) : a = b ∧ p = q := by
  have hdiv := congrArg (· / sz) h
  have hmod := congrArg (· % sz) h
  simp only [Nat.add_mul_div_left _ _ (Nat.zero_lt_of_lt hp), Nat.div_eq_of_lt hp,
    Nat.div_eq_of_lt hq, Nat.zero_add] at hdiv
  simp only [Nat.add_mul_mod_self_left, Nat.mod_eq_of_lt hp, Nat.mod_eq_of_lt hq] at hmod
  exact ⟨hdiv, hmod⟩

namespace Vdir.Listing

variable {last pre des : List De} {front back : List (List De)}

/-- The position of an entry, and the end of the listing, lie within a block. -/
theorem size_lt (h : v.Listing dess last) (heq : dess ++ [last] = front ++ (pre ++ des) :: back)
    (hend : des = [] → back = []) : size pre < v.deblkSz := by
  have hholds := h.holds
  rw [heq] at hholds
  obtain ⟨-, b, -, -, -, -, hb, -⟩ := hholds.split
  cases des with
  | nil =>
    obtain rfl := hend rfl
    have hlast : last = pre := by
      have hinj := List.append_inj_right' heq rfl
      simpa using hinj
    have hroom := h.room
    rw [calcSize_zero, hlast] at hroom
    omega
  | cons de des =>
    obtain ⟨-, -, hfit, -⟩ := hb.drop
    have hsize := de.size_pos
    omega

theorem ready_start (h : v.Listing dess last) :
    ({ v with lastUl := 0, lastP := 0 } : Vdir).Ready (dess ++ [last])
      (stampAll v.deblkSz 0 (dess ++ [last])) := by
  cases dess with
  | nil => exact ⟨[], [], last, [], ⟨h.holds, rfl, rfl⟩, rfl, fun _ => rfl, rfl⟩
  | cons des dess =>
    refine ⟨[], [], des, dess ++ [last], ⟨h.holds, rfl, rfl⟩, rfl, ?_, by
      simp [Vdir.rest, stampAll, calcOffset]⟩
    intro hnil
    exact absurd hnil (h.full des List.mem_cons_self)

/-- The last pointer is moved to the position of an entry; at the end of the listing there may be
none. -/
theorem seekVdir_spec (h : v.Listing dess last) {l : List (De × ℕ)}
    (hready : v.Ready (dess ++ [last]) l)
    (heq : dess ++ [last] = front ++ (pre ++ des) :: back) (hend : des = [] → back = [])
    {fPos : ℕ} (hpos : fPos = size pre + v.deblkSz * front.length) :
    ∃ valid v' l', seekVdir fPos v = (valid, v') ∧ v'.deblk = v.deblk ∧ v'.deblkSz = v.deblkSz ∧
      v'.Ready (dess ++ [last]) l' ∧
      (valid = true → v'.At front pre des back) ∧ (valid = false → des = []) := by
  have hlt := h.size_lt heq hend
  have hholds : v.HoldsAll (front ++ (pre ++ des) :: back) := heq ▸ h.holds
  rw [seekVdir]
  by_cases hoff : fPos = calcOffset v
  · -- the last pointer is there already
    rw [if_pos hoff]
    obtain ⟨front', pre', des', back', hat, heq', hend', -⟩ := id hready
    have hlt' := h.size_lt heq' hend'
    rw [hpos, calcOffset, hat.p, hat.ul] at hoff
    obtain ⟨hlen, hsize⟩ := eq_of_mul_add_eq hlt hlt' hoff
    obtain ⟨rfl, htail⟩ := List.append_inj (heq.symm.trans heq') hlen
    obtain ⟨hblk, rfl⟩ := List.cons.inj htail
    obtain ⟨rfl, rfl⟩ := eq_of_size_eq hblk hsize
    exact ⟨true, v, l, rfl, rfl, rfl, hready, fun _ => hat, fun h => by cases h⟩
  · rw [if_neg hoff]
    by_cases hzero : fPos = 0
    · -- the start of the listing
      simp only [hzero, if_true]
      have hfront : front = [] := by
        have hmul : v.deblkSz * front.length = 0 := by omega
        rcases Nat.mul_eq_zero.mp hmul with hsz | hlen
        · omega
        · exact List.length_eq_zero_iff.mp hlen
      obtain rfl := size_eq_zero (by omega : size pre = 0)
      subst hfront
      exact ⟨true, _, _, rfl, rfl, rfl, h.ready_start, fun _ => ⟨hholds, rfl, rfl⟩,
        fun h => by cases h⟩
    · simp only [hzero, if_false]
      have hul : fPos / v.deblkSz = front.length := by
        rw [hpos, Nat.add_mul_div_left _ _ (by omega), Nat.div_eq_of_lt hlt, Nat.zero_add]
      have hnum : v.deblk.length - front.length = back.length + 1 := by
        rw [hholds.length]
        simp
      -- the walk in the block of the position
      have hstart : ({ v with lastUl := front.length, lastP := 0 } : Vdir).At front []
          (pre ++ des) back := ⟨hholds, rfl, rfl⟩
      have hoff₀ : v.deblkSz * front.length =
          calcOffset { v with lastUl := front.length, lastP := 0 } := by simp [calcOffset]
      obtain ⟨heqw, hat⟩ := seekWalk_spec hstart hoff₀ (by omega : fPos = _ + size pre)
      rw [hul, hnum, List.range'_succ, List.findSome?_cons]
      cases des with
      | nil =>
        obtain rfl := hend rfl
        simp only [hat.isDeblkEnd_nil, if_true, List.length_nil, List.range'_zero,
          List.findSome?_nil, Option.isSome_none, Option.getD_none]
        exact ⟨false, _, _, rfl, rfl, rfl, h.ready_start, by simp, by simp⟩
      | cons de des =>
        simp only [hat.isDeblkEnd_cons.1, Bool.false_eq_true, if_false, Option.isSome_some,
          Option.getD_some]
        refine ⟨true, _, _, rfl, ?_, ?_, ⟨front, pre, _, _, hat, heq, hend, rfl⟩, fun _ => hat,
          fun h => by cases h⟩
        · simp [heqw]
        · simp [heqw]

/-- The vdir stays the same listing while it is read. -/
theorem of_ready {v' : Vdir} {l : List (De × ℕ)} (h : v.Listing dess last)
    (hready : v'.Ready (dess ++ [last]) l) (hsz : v'.deblkSz = v.deblkSz) :
    v'.Listing dess last := by
  obtain ⟨front, pre, des, back, hat, heq, -, -⟩ := hready
  exact ⟨heq ▸ hat.holds, h.full, hsz ▸ h.room⟩

/-- **From the position of an entry, the reader hands out that entry and those after it**, as many
as the caller takes. -/
theorem auVdirFillDe_eq (h : v.Listing dess last) {l : List (De × ℕ)}
    (hready : v.Ready (dess ++ [last]) l)
    (heq : dess ++ [last] = front ++ (pre ++ des) :: back) (hend : des = [] → back = [])
    {fPos : ℕ} (hpos : fPos = size pre + v.deblkSz * front.length) {rest : List (De × ℕ)}
    (hrest : rest = stamp fPos des ++ stampAll v.deblkSz (front.length + 1) back) (s : σ) :
    ∃ v' front' pre' des' back' l', auVdirFillDe filldir v fPos s =
        (v', size pre' + v.deblkSz * front'.length, (feed filldir rest s).2) ∧
      v'.deblkSz = v.deblkSz ∧ v'.Ready (dess ++ [last]) l' ∧
      dess ++ [last] = front' ++ (pre' ++ des') :: back' ∧ (des' = [] → back' = []) ∧
      stamp (size pre' + v.deblkSz * front'.length) des' ++
        stampAll v.deblkSz (front'.length + 1) back' = rest.drop (feed filldir rest s).1 := by
  obtain ⟨valid, v₁, l₁, hseek, -, hsz₁, hready₁, hvalid, hinvalid⟩ :=
    h.seekVdir_spec hready heq hend hpos
  simp only [auVdirFillDe, hseek]
  cases valid with
  | false =>
    -- nothing is left
    obtain rfl := hinvalid rfl
    obtain rfl := hend rfl
    have hnil : rest = [] := by simpa [stamp, stampAll] using hrest
    rw [hnil]
    exact ⟨v₁, front, pre, [], [], l₁, by rw [hpos]; rfl, hsz₁, hready₁, heq, fun _ => rfl, rfl⟩
  | true =>
    have hat := hvalid rfl
    have hoff : fPos = calcOffset v₁ := by rw [hpos, calcOffset, hat.p, hat.ul, hsz₁]
    have hrest₁ : v₁.rest des back = rest := by
      rw [hrest, Vdir.rest, ← hoff, hsz₁, hat.ul]
    obtain ⟨v', hv', hsz, front', pre', des', back', hat', heq', hend', hl'⟩ :=
      fillLoop_spec filldir hat hoff s
    have hoff' : calcOffset v' = size pre' + v.deblkSz * front'.length := by
      rw [calcOffset, hat'.p, hat'.ul, hsz, hsz₁]
    rw [hrest₁] at hv' hl'
    refine ⟨v', front', pre', des', back', _, by rw [← hoff']; exact hv', hsz.trans hsz₁,
      ⟨front', pre', des', back', hat', heq.trans heq', hend', rfl⟩, heq.trans heq', hend', ?_⟩
    rw [hl', Vdir.rest, hoff', hsz, hsz₁, hat'.ul]

end Vdir.Listing

end Read

/-! ## Runs of a reader -/

/-- The steps of a reader: entries are read, or the position is set. -/
inductive Op (σ π : Type*)
  | read (s : σ)
  | lseek (p : π)

/-- The position of the first of a row of entries. -/
def posOf (last : ℕ) (l : List (De × ℕ)) : ℕ := (l.head?.map Prod.snd).getD last

section Runs

variable {σ : Type*} (filldir : σ → De → ℕ → Option σ)

/-- A run of `au_vdir_fill_de` and `lseek` on an open directory: what the callers made of the
entries. -/
def readRun : Vdir → ℕ → List (Op σ ℕ) → List σ
  | _, _, [] => []
  | v, fPos, .read s :: ops =>
    let (v, fPos, s) := auVdirFillDe filldir v fPos s
    s :: readRun v fPos ops
  | v, _, .lseek p :: ops => readRun v p ops

/-- The same run on a list with an index. -/
def cursorRun (l : List (De × ℕ)) : ℕ → List (Op σ ℕ) → List σ
  | _, [] => []
  | i, .read s :: ops =>
    (feed filldir (l.drop i) s).2 :: cursorRun l (i + (feed filldir (l.drop i) s).1) ops
  | _, .lseek j :: ops => cursorRun l j ops

theorem stamp_drop (p i : ℕ) (des : List De) :
    (stamp p des).drop i = stamp (p + size (des.take i)) (des.drop i) := by
  induction des generalizing p i with
  | nil => simp [stamp]
  | cons de des ih =>
    cases i with
    | zero => simp
    | succ i => simp [stamp, ih, add_assoc]

@[simp] theorem length_stamp (p : ℕ) (des : List De) : (stamp p des).length = des.length := by
  induction des generalizing p with
  | nil => rfl
  | cons de des ih => simp [stamp, ih]

theorem length_feed_le (l : List (De × ℕ)) (s : σ) : (feed filldir l s).1 ≤ l.length := by
  induction l generalizing s with
  | nil => exact le_rfl
  | cons x l ih =>
    rw [feed]
    split
    · exact Nat.zero_le _
    · exact Nat.succ_le_succ (ih _)

/-- Every index is at the position of an entry, or at the end. -/
theorem exists_position (sz k : ℕ) (dess : List (List De)) (last : List De) {i : ℕ}
    (hi : i ≤ (stampAll sz k (dess ++ [last])).length) :
    ∃ front pre des back, dess ++ [last] = front ++ (pre ++ des) :: back ∧ (des = [] → back = []) ∧
      posOf (size last + sz * (k + dess.length)) ((stampAll sz k (dess ++ [last])).drop i) =
        size pre + sz * (k + front.length) ∧
      stamp (size pre + sz * (k + front.length)) des ++ stampAll sz (k + front.length + 1) back =
        (stampAll sz k (dess ++ [last])).drop i := by
  induction dess generalizing k i with
  | nil =>
    have hi' : i ≤ last.length := by simpa [stampAll] using hi
    refine ⟨[], last.take i, last.drop i, [], by simp, fun _ => rfl, ?_, ?_⟩
    · simp only [List.nil_append, stampAll, List.append_nil, stamp_drop, List.length_nil, add_zero]
      cases hdrop : last.drop i with
      | nil =>
        have htake : last.take i = last := List.take_of_length_le (List.drop_eq_nil_iff.mp hdrop)
        simp [stamp, posOf, htake]
      | cons de des => simp [stamp, posOf, add_comm]
    · simp [stampAll, stamp_drop, add_comm]
  | cons des dess ih =>
    simp only [List.cons_append, stampAll]
    by_cases hlt : i < des.length
    · have hdrop : (stamp (sz * k) des ++ stampAll sz (k + 1) (dess ++ [last])).drop i =
          stamp (sz * k + size (des.take i)) (des.drop i) ++
            stampAll sz (k + 1) (dess ++ [last]) := by
        rw [List.drop_append_of_le_length (by simpa using hlt.le), stamp_drop]
      rw [hdrop]
      refine ⟨[], des.take i, des.drop i, dess ++ [last], by simp, ?_, ?_, ?_⟩
      · intro hnil
        rw [List.drop_eq_nil_iff] at hnil
        omega
      · rw [List.drop_eq_getElem_cons hlt]
        simp [stamp, posOf, add_comm]
      · simp [add_comm]
    · have hdrop : (stamp (sz * k) des ++ stampAll sz (k + 1) (dess ++ [last])).drop i =
          (stampAll sz (k + 1) (dess ++ [last])).drop (i - des.length) := by
        rw [List.drop_append, List.drop_eq_nil_of_le (by simpa using Nat.le_of_not_lt hlt)]
        simp
      have hi' : i - des.length ≤ (stampAll sz (k + 1) (dess ++ [last])).length := by
        simp only [List.cons_append, stampAll, List.length_append, length_stamp] at hi
        omega
      obtain ⟨front, pre, des', back, heq, hend, hposof, hstamp⟩ := ih (k + 1) hi'
      have hlen : ∀ n, k + (n + 1) = k + 1 + n := fun n => by omega
      rw [hdrop]
      refine ⟨des :: front, pre, des', back, by rw [heq]; rfl, hend, ?_, ?_⟩
      · rw [List.length_cons, List.length_cons, hlen dess.length, hlen front.length]
        exact hposof
      · rw [List.length_cons, hlen front.length]
        exact hstamp

theorem posOf_position {sz : ℕ} {dess front back : List (List De)} {last pre des : List De}
    (heq : dess ++ [last] = front ++ (pre ++ des) :: back) (hend : des = [] → back = []) :
    posOf (size last + sz * dess.length)
        (stamp (size pre + sz * front.length) des ++ stampAll sz (front.length + 1) back) =
      size pre + sz * front.length := by
  cases des with
  | nil =>
    obtain rfl := hend rfl
    rw [List.append_nil] at heq
    obtain ⟨rfl, hlast⟩ := List.append_inj' heq rfl
    obtain rfl := List.singleton_inj.mp hlast
    rfl
  | cons de des => rfl

/-- The step of a run, with the position set to that of an entry. -/
def Op.map {π ρ : Type*} (f : π → ρ) : Op σ π → Op σ ρ
  | .read s => .read s
  | .lseek p => .lseek (f p)

/-- **A directory is read like a list with an index**: in every run of reads and of returns to
positions that were handed out, each entry comes once and in order. -/
theorem readRun_eq {v : Vdir} {dess : List (List De)} {last : List De} (h : v.Listing dess last)
    {l₀ : List (De × ℕ)} (hready : v.Ready (dess ++ [last]) l₀) {ops : List (Op σ ℕ)}
    {l : List (De × ℕ)} (hl : l = stampAll v.deblkSz 0 (dess ++ [last])) {e : ℕ}
    (he : e = size last + v.deblkSz * dess.length) {i : ℕ} (hi : i ≤ l.length)
    (hops : ∀ j, .lseek j ∈ ops → j ≤ l.length) :
    readRun filldir v (posOf e (l.drop i)) (ops.map (Op.map fun j => posOf e (l.drop j))) =
      cursorRun filldir l i ops := by
  induction ops generalizing v l₀ i with
  | nil => rfl
  | cons op ops ih =>
    have hops' := fun j hj => hops j (List.mem_cons_of_mem _ hj)
    cases op with
    | lseek j => exact ih h hready hl he (hops j List.mem_cons_self) hops'
    | read s =>
      obtain ⟨front, pre, des, back, heq, hend, hpos, hrest⟩ :=
        exists_position v.deblkSz 0 dess last (hl ▸ hi)
      simp only [Nat.zero_add, ← hl, ← he] at hpos hrest
      obtain ⟨v', front', pre', des', back', l', hfill, hsz, hready', heq', hend', hrest'⟩ :=
        h.auVdirFillDe_eq filldir hready heq hend hpos (hpos.symm ▸ hrest.symm) s
      -- the position afterwards is that of the next entry
      have hpos' : size pre' + v.deblkSz * front'.length =
          posOf e (l.drop (i + (feed filldir (l.drop i) s).1)) := by
        rw [← List.drop_drop, ← hrest', he, posOf_position heq' hend']
      have hlen := length_feed_le filldir (l.drop i) s
      rw [List.length_drop] at hlen
      simp only [List.map_cons, Op.map, readRun, cursorRun, hfill, hpos']
      rw [ih (h.of_ready hready' hsz) hready' (by rw [hsz]; exact hl) (by rw [hsz]; exact he)
        (by omega) hops']

end Runs

/-- All entries of a listing, as a caller with room for them gets them. -/
def listDir (v : Vdir) : List De := (auVdirFillDe (fun acc de _ => some (acc ++ [de])) v 0 []).2.2

theorem feed_all (l : List (De × ℕ)) (acc : List De) :
    (feed (fun acc de _ => some (acc ++ [de])) l acc).2 = acc ++ l.map Prod.fst := by
  induction l generalizing acc with
  | nil => simp [feed]
  | cons x l ih =>
    rw [feed, ih]
    simp

theorem map_fst_stamp (p : ℕ) (des : List De) : (stamp p des).map Prod.fst = des := by
  induction des generalizing p with
  | nil => rfl
  | cons de des ih => simp [stamp, ih]

theorem map_fst_stampAll (sz k : ℕ) (dess : List (List De)) :
    (stampAll sz k dess).map Prod.fst = dess.flatten := by
  induction dess generalizing k with
  | nil => rfl
  | cons des dess ih => simp [stampAll, ih, map_fst_stamp]

theorem Vdir.Listing.posOf_start {v : Vdir} {dess : List (List De)} {last : List De}
    (h : v.Listing dess last) :
    posOf (size last + v.deblkSz * dess.length) (stampAll v.deblkSz 0 (dess ++ [last])) = 0 := by
  cases dess with
  | nil => cases last <;> rfl
  | cons des dess =>
    cases des with
    | nil => exact absurd rfl (h.full [] List.mem_cons_self)
    | cons de des => rfl

theorem Vdir.Listing.listDir_eq {v : Vdir} {dess : List (List De)} {last : List De}
    (h : v.Listing dess last) :
    listDir { v with lastUl := 0, lastP := 0 } = (dess ++ [last]).flatten := by
  have hlisting := h.of_ready h.ready_start rfl
  have hrun := readRun_eq (fun acc de _ => some (acc ++ [de])) hlisting h.ready_start rfl rfl
    (Nat.zero_le _) (by simp : ∀ j, Op.lseek j ∈ [Op.read ([] : List De)] → _)
  rw [List.drop_zero, h.posOf_start] at hrun
  have hhead := (List.cons.inj hrun).1
  rw [listDir, ← map_fst_stampAll v.deblkSz 0, ← List.nil_append (List.map _ _), ← feed_all]
  exact hhead

end Meta3dr.Aufs
