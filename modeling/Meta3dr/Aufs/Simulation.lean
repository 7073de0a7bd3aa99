import Meta3dr.Aufs.Addition
import Meta3dr.Aufs.Halts

/-!
# The union as a plain tree

A system call on the mount does what it does on the plain tree that the mount shows: it has the same
effect, or fails with the same error. A call in which a step fails leaves the tree as it was, unless
it says `EIO`, where the entry itself may be out of order.

## Main definitions

* `plain`: a system call on a plain tree
* `performAll`, `Runs`: calls one after another, on the mount and on a plain tree

## Main results

* `perform_plain`: a system call on the mount follows the plain tree
* `performAll_runs`: a run of calls is a run on the plain tree
* `perform_cut`: a call that is cut short leaves every other path as it was
-/

namespace Meta3dr.Aufs

open Shell Program

/-! ## Calls on a plain tree -/

/-- The last step of a walk. -/
theorem Tree.walk_concat (T : Tree) (s p : Path) (n : String) :
    T.walk s (p ++ [n]) = (T.walk s p).bind fun x =>
      match x with
      | none => .error .enoent
      | some .dir =>
        if maxNameLen < n.utf8ByteSize then .error .enametoolong
        else if hasWhPfx n then .error .eperm
        else .ok (T (s ++ p ++ [n]))
      | some _ => .error .enotdir := by
  induction p generalizing s with
  | nil =>
    rw [List.nil_append, List.append_nil]
    rfl
  | cons a p ih =>
    simp only [List.cons_append, Tree.walk]
    split
    · rfl
    · by_cases hlen : maxNameLen < a.utf8ByteSize
      · rw [if_pos hlen, if_pos hlen]
        rfl
      · by_cases hwh : hasWhPfx a = true
        · rw [if_neg hlen, if_neg hlen, if_pos hwh, if_pos hwh]
          rfl
        · rw [if_neg hlen, if_neg hlen, if_neg hwh, if_neg hwh, ih, List.append_cons s a p]
    · rfl

/-- A walk depends on the entries on its way. -/
theorem Tree.walk_congr {T T' : Tree} {s p : Path} (h : ∀ r, r <+: s ++ p → T r = T' r) :
    T.walk s p = T'.walk s p := by
  induction p generalizing s with
  | nil => simp [Tree.walk, h s (by simp)]
  | cons n p ih =>
    have hrest := ih (s := s ++ [n]) (by simpa using h)
    simp only [Tree.walk, h s (List.prefix_append _ _), hrest]

section Plain

variable (V : Tree) (dir : Path) (name : String)

open Classical in
/-- A system call on a plain tree. -/
noncomputable def plain (call : Syscall) : Except Errno Tree :=
  (V.walk [] (dir ++ [name])).bind fun x =>
    match call, x with
    | .create, none => .ok (Function.update V (dir ++ [name]) (some (.file [])))
    | .symlink t, none => .ok (Function.update V (dir ++ [name]) (some (.link t)))
    | .mknod, none => .ok (Function.update V (dir ++ [name]) (some .special))
    | .mkdir, none => .ok (Function.update V (dir ++ [name]) (some .dir))
    | .create, some _ => .error .eexist
    | .symlink _, some _ => .error .eexist
    | .mknod, some _ => .error .eexist
    | .mkdir, some _ => .error .eexist
    | .unlink, none => .error .enoent
    | .unlink, some .dir => .error .eisdir
    | .unlink, some _ => .ok (Function.update V (dir ++ [name]) none)
    | .rmdir, none => .error .enoent
    | .rmdir, some .dir =>
      if ∀ a, V (dir ++ [name] ++ [a]) = none then .ok (Function.update V (dir ++ [name]) none)
      else .error .enotempty
    | .rmdir, some _ => .error .enotdir
    | .write _, none => .error .enoent
    | .write t, some (.file _) => .ok (Function.update V (dir ++ [name]) (some (.file t)))
    | .write _, some .dir => .error .eisdir
    | .write _, some _ => .error .einval

/-- The tree after a call; one that fails has no effect. -/
noncomputable def Tree.after (call : Syscall) : Tree := (plain V dir name call).toOption.getD V

end Plain

/-! ## One call -/

section Perform

variable {O : Prop} {ro : Files} {fs : List (Option Errno)} {V V' : Tree} {dir : Path} {name : String}

/-- What a call on the mount leaves when it returns. -/
def Done (ro : Files) (fs : List (Option Errno)) (V : Tree) (dir : Path) (name : String)
    (call : Syscall) (m : Mount) : Prop :=
  plain V dir name call = .ok (V.after dir name call) ∧ Stands ro fs (V.after dir name call) m

/-- What it leaves when it fails: the error is that of the plain tree, or a step has failed. -/
def Refused (ro : Files) (fs : List (Option Errno)) (V : Tree) (dir : Path) (name : String)
    (call : Syscall) (e : Errno) (m : Mount) : Prop :=
  plain V dir name call = .error e ∧ Stands ro fs V m ∨
    Failed ro fs V (V.after dir name call) dir name e m

/-- An operation that the plain tree has too. -/
theorem done_of_plain {call : Syscall} {P : Mount → Prop} {t : Exec Unit}
    (hplain : plain V dir name call = .ok V')
    (h : Spec O (Reached ro fs V V' dir name) P t (fun _ => Stands ro fs V')
      (Failed ro fs V V' dir name)) :
    Spec O (Reached ro fs V (V.after dir name call) dir name) P t
      (fun _ => Done ro fs V dir name call) (Refused ro fs V dir name call) := by
  have hafter : V.after dir name call = V' := by
    rw [Tree.after, hplain]
    rfl
  rw [hafter]
  refine h.mono (fun _ h => h) (fun _ m hm => ?_) (fun _ m hm => .inr ?_) fun _ _ h => h
  · exact ⟨hafter ▸ hplain, hafter ▸ hm⟩
  · exact hafter ▸ hm

variable {rw : Files} {parent d : Dentry}

/-- What a name that was looked up is, decides what a call does. -/
theorem plain_of_lookedUp {T : Tree} (hlook : LookedUp ro.get T dir name parent d) :
    (union T ro.get).walk [] (dir ++ [name]) = .ok (union T ro.get (dir ++ [name])) := by
  obtain ⟨hs, hn⟩ := pathOk_concat.mp hlook.ok
  have hwalk := (union_closed hlook.upper.closed (l := ro.get)).walk_eq
    (fun _ => pathOk_of_union) (s := []) (r := dir) (by simp [hlook.dir])
  rw [Tree.walk_concat, hwalk, List.nil_append, hlook.dir]
  simp [Except.bind, Nat.not_lt.mpr hn.2, hn.1]

/-- A new entry, where the name may be taken. -/
theorem addSimple_plain {T : Tree} {call : Syscall} {x : Node}
    (hlook : LookedUp ro.get T dir name parent d) (hdot : ¬ isDot name) (hxdir : x ≠ .dir)
    (hnone : union T ro.get (dir ++ [name]) = none → plain (union T ro.get) dir name call =
      .ok (Function.update (union T ro.get) (dir ++ [name]) (some x)))
    (hsome : ∀ y, union T ro.get (dir ++ [name]) = some y →
      plain (union T ro.get) dir name call = .error .eexist) :
    Spec O (Reached ro fs (union T ro.get) ((union T ro.get).after dir name call) dir name)
      (OnUpper ro fs (Shows T)) (addSimple dir name parent d x)
      (fun _ => Done ro fs (union T ro.get) dir name call)
      (Refused ro fs (union T ro.get) dir name call) := by
  cases hx : union T ro.get (dir ++ [name]) with
  | none => exact done_of_plain (hnone hx) (addSimple_spec hlook hx hdot hxdir)
  | some y =>
    simp only [addSimple, hlook.dentry.node hlook.ok, hx]
    exact Trial.Triple.throw_bind fun m hm => .inl ⟨hsome y hx, hm.stands hlook.upper rfl⟩

open Classical in
/-- **An operation on a name that was looked up** does what the plain tree says. -/
theorem operation_spec (fs : List (Option Errno)) {T : Tree}
    (hlook : LookedUp ro.get T dir name parent d) (hdot : ¬ isDot name) (call : Syscall)
    (hO : call = .mkdir → Faulty fs → O) :
    Spec O (Reached ro fs (union T ro.get) ((union T ro.get).after dir name call) dir name)
      (OnUpper ro fs (Shows T))
      (match call with
        | .create => addSimple dir name parent d (.file [])
        | .symlink t => addSimple dir name parent d (.link t)
        | .mknod => addSimple dir name parent d .special
        | .mkdir => aufsMkdir dir name parent d
        | .unlink => aufsUnlink dir name parent d
        | .rmdir => aufsRmdir dir name parent d
        | .write t => aufsWrite dir name parent d t)
      (fun _ => Done ro fs (union T ro.get) dir name call)
      (Refused ro fs (union T ro.get) dir name call) := by
  have hwalk := plain_of_lookedUp hlook
  have hnode := hlook.dentry.node hlook.ok
  have hstands : ∀ m, OnUpper ro fs (Shows T) m → Stands ro fs (union T ro.get) m := fun m hm =>
    hm.stands hlook.upper rfl
  -- an error that the plain tree has too
  have hrefused : ∀ {e}, plain (union T ro.get) dir name call = .error e →
      ∀ m, OnUpper ro fs (Shows T) m → Refused ro fs (union T ro.get) dir name call e m :=
    fun hplain m hm => .inl ⟨hplain, hstands m hm⟩
  cases call with
  | create =>
    exact addSimple_plain hlook hdot (by simp) (fun hx => by rw [plain, hwalk, hx]; rfl)
      fun y hx => by rw [plain, hwalk, hx]; rfl
  | symlink t =>
    exact addSimple_plain hlook hdot (by simp) (fun hx => by rw [plain, hwalk, hx]; rfl)
      fun y hx => by rw [plain, hwalk, hx]; rfl
  | mknod =>
    exact addSimple_plain hlook hdot (by simp) (fun hx => by rw [plain, hwalk, hx]; rfl)
      fun y hx => by rw [plain, hwalk, hx]; rfl
  | mkdir =>
    cases hx : union T ro.get (dir ++ [name]) with
    | none => exact done_of_plain (by rw [plain, hwalk, hx]; rfl) (aufsMkdir_spec hlook hx hdot (hO rfl))
    | some y =>
      simp only [aufsMkdir, hnode, hx]
      exact Trial.Triple.throw_bind (hrefused (by rw [plain, hwalk, hx]; rfl))
  | unlink =>
    cases hx : union T ro.get (dir ++ [name]) with
    | none =>
      simp only [aufsUnlink, hnode, hx]
      exact Trial.Triple.throw (hrefused (by rw [plain, hwalk, hx]; rfl))
    | some y =>
      by_cases hy : y = .dir
      · subst hy
        simp only [aufsUnlink, hnode, hx]
        exact Trial.Triple.throw (hrefused (by rw [plain, hwalk, hx]; rfl))
      · refine done_of_plain ?_ (aufsUnlink_spec hlook hx hy)
        rw [plain, hwalk, hx]
        cases y <;> first | rfl | exact absurd rfl hy
  | rmdir =>
    cases hx : union T ro.get (dir ++ [name]) with
    | none =>
      simp only [aufsRmdir, hnode, hx]
      exact Trial.Triple.throw (hrefused (by rw [plain, hwalk, hx]; rfl))
    | some y =>
      by_cases hy : y = .dir
      · subst hy
        have hrmdir : plain (union T ro.get) dir name .rmdir =
            if ∀ a, union T ro.get (dir ++ [name] ++ [a]) = none then
              .ok (Function.update (union T ro.get) (dir ++ [name]) none)
            else .error .enotempty := by
          rw [plain, hwalk, hx]
          rfl
        by_cases hempty : ∀ a, union T ro.get (dir ++ [name] ++ [a]) = none
        · rw [if_pos hempty] at hrmdir
          exact done_of_plain hrmdir (aufsRmdir_spec hlook hx hempty)
        · -- the test stops
          rw [if_neg hempty] at hrmdir
          rw [aufsRmdir, hnode, hx]
          refine Trial.Triple.bind (fun _ _ => False) ((auTestEmpty_spec hlook hx fun m hm =>
            .inl (hstands m hm)).mono (fun _ h => h) (fun _ _ h => hempty h.1) (fun e m h => ?_)
            fun _ _ h => h) fun _ _ h => h.elim
          rcases h.2 with hf | ⟨rfl, -⟩
          · exact .inr ⟨hf, .inl (hstands m h.1)⟩
          · exact .inl ⟨hrmdir, hstands m h.1⟩
      · have hthrow : aufsRmdir dir name parent d = throw .enotdir := by
          rw [aufsRmdir, hnode, hx]
          cases y <;> first | rfl | exact absurd rfl hy
        rw [hthrow]
        refine Trial.Triple.throw (hrefused ?_)
        rw [plain, hwalk, hx]
        cases y <;> first | rfl | exact absurd rfl hy
  | write t =>
    cases hx : union T ro.get (dir ++ [name]) with
    | none =>
      simp only [aufsWrite, hnode, hx]
      exact Trial.Triple.throw (hrefused (by rw [plain, hwalk, hx]; rfl))
    | some y =>
      cases y with
      | file t₀ => exact done_of_plain (by rw [plain, hwalk, hx]; rfl) (aufsWrite_spec hlook hx)
      | dir =>
        simp only [aufsWrite, hnode, hx]
        exact Trial.Triple.throw (hrefused (by rw [plain, hwalk, hx]; rfl))
      | link t₀ =>
        simp only [aufsWrite, hnode, hx]
        exact Trial.Triple.throw (hrefused (by rw [plain, hwalk, hx]; rfl))
      | special =>
        simp only [aufsWrite, hnode, hx]
        exact Trial.Triple.throw (hrefused (by rw [plain, hwalk, hx]; rfl))

/-- **A system call on the mount** does what it does on the plain tree; only the revert of `mkdir`
ends in an oops. -/
theorem perform_spec (hl : LowerTree ro.get) (dir : Path) (hdot : ¬ isDot name)
    (call : Syscall) (hO : call = .mkdir → Faulty fs → O) :
    Spec O (Reached ro fs V (V.after dir name call) dir name) (Stands ro fs V)
      (perform dir name call) (fun _ => Done ro fs V dir name call)
      (Refused ro fs V dir name call) := by
  refine Spec.read (fun m hm => .inl hm) fun rw hc hrw => ?_
  obtain ⟨hu, rfl⟩ := hrw
  have hback : ∀ m, OnUpper ro fs (· = rw) m → Stands ro fs (union rw.get ro.get) m := fun m hm =>
    hm.mono (by rintro rw rfl; exact ⟨hu, rfl⟩)
  have hres := resolveFrom_at hu hl.closed pathOk_nil rootDentry_at dir (by simp)
  have hconcat := Tree.walk_concat (union rw.get ro.get) [] dir name
  cases hw : (union rw.get ro.get).walk [] dir with
  | error e =>
    -- the walk to the directory fails
    rw [hw] at hres hconcat
    rw [show resolve (mountBranches rw ro) dir = .error e from hres]
    exact Trial.Triple.throw_bind fun m hm => .inl ⟨by rw [plain, hconcat]; rfl, hback m hm⟩
  | ok x =>
    rw [hw] at hres hconcat
    obtain ⟨hok, hx, parent, hparent, hat⟩ := hres
    rw [List.nil_append] at hok hx hat
    rw [show resolve (mountBranches rw ro) dir = .ok parent from hparent]
    have hnode := hat.node hok
    rw [← hx] at hnode
    refine Trial.Triple.bind (fun p m => p = parent ∧ OnUpper ro fs (· = rw) m)
      (Trial.Triple.pure fun m hm => ⟨rfl, hm⟩) fun p => Spec.pre fun hp => ?_
    subst hp
    by_cases hdir : x = some .dir
    · subst hdir
      simp only [hnode]
      by_cases hlen : maxNameLen < name.utf8ByteSize
      · have hlook : aufsLookup (mountBranches rw ro) dir p name = .error .enametoolong := by
          simp [aufsLookup, hlen, bind, Except.bind, throw, throwThe, MonadExceptOf.throw]
        rw [hlook]
        exact Trial.Triple.throw_bind fun m hm =>
          .inl ⟨by rw [plain, hconcat]; simp [Except.bind, hlen], hback m hm⟩
      · by_cases hwh : hasWhPfx name = true
        · -- a name with the prefix of whiteouts is refused
          have hlook : aufsLookup (mountBranches rw ro) dir p name = .error .eperm := by
            simp [aufsLookup, auLkupDentry, hlen, hwh, bind, Except.bind, throw, throwThe,
              MonadExceptOf.throw]
          rw [hlook]
          exact Trial.Triple.throw_bind fun m hm =>
            .inl ⟨by rw [plain, hconcat]; simp [Except.bind, hlen, hwh], hback m hm⟩
        · have hn : NameOk name := ⟨by simpa using hwh, Nat.not_lt.mp hlen⟩
          have hok' := pathOk_concat.mpr ⟨hok, hn⟩
          obtain ⟨d, hlook, hat'⟩ := aufsLookup_at hu hl.closed hat hx.symm hn
            (Set.notMem_empty _) (Set.notMem_empty _)
          -- from here on it is the operation on the name that was looked up
          rw [hlook]
          refine Trial.Triple.bind (fun d' m => d' = d ∧ OnUpper ro fs (· = rw) m)
            (Trial.Triple.pure fun m hm => ⟨rfl, hm⟩) fun d' => Spec.pre fun hd => ?_
          subst hd
          have hlooked : LookedUp ro.get (vis rw.get) dir name p d' :=
            ⟨(upper_vis.mpr hu).1, hl, by rw [union_vis, ← hx], (at_vis hok).mpr hat,
              (at_vis hok').mpr hat', hok'⟩
          have hop := operation_spec fs hlooked hdot call hO
          rw [union_vis] at hop
          refine hop.mono_pre fun m hm => hm.mono ?_
          rintro rw rfl
          rfl
    · -- the directory is not there, or is none
      cases x with
      | none =>
        simp only [hnode]
        exact Trial.Triple.throw_bind fun m hm => .inl ⟨by rw [plain, hconcat]; rfl, hback m hm⟩
      | some y =>
        simp only [hnode]
        have hplain : plain (union rw.get ro.get) dir name call = .error .enotdir := by
          rw [plain, hconcat]
          cases y <;> first | rfl | exact absurd rfl hdir
        cases y with
        | dir => exact absurd rfl hdir
        | file t => exact Trial.Triple.throw_bind fun m hm => .inl ⟨hplain, hback m hm⟩
        | link t => exact Trial.Triple.throw_bind fun m hm => .inl ⟨hplain, hback m hm⟩
        | special => exact Trial.Triple.throw_bind fun m hm => .inl ⟨hplain, hback m hm⟩

end Perform

/-! ## Cuts -/

section Cut

variable {O : Prop} {ro rw : Files} {fs : List (Option Errno)} {V : Tree} {s : Path} {n : String} {m : Mount}

/-- A call changes the tree at its entry only. -/
theorem Tree.after_off {V : Tree} {dir : Path} {name : String} {call : Syscall} {q : Path}
    (hq : ¬ dir ++ [name] <+: q) : V.after dir name call q = V q := by
  have hne : q ≠ dir ++ [name] := by
    rintro rfl
    exact hq (List.prefix_refl _)
  have hupdate : ∀ x, Function.update V (dir ++ [name]) x q = V q := fun x =>
    Function.update_of_ne hne _ _
  rw [Tree.after]
  cases hp : plain V dir name call with
  | error e => rfl
  | ok V' =>
    rw [plain] at hp
    cases hw : V.walk [] (dir ++ [name]) with
    | error e =>
      rw [hw] at hp
      cases hp
    | ok x =>
      rw [hw] at hp
      simp only [Except.bind] at hp
      -- the cases in which a call has an effect
      split at hp <;> first
        | cases hp; exact hupdate _
        | cases hp
        | (split_ifs at hp; cases hp; exact hupdate _)

/-- Where a mount shows a tree, its lookups find the entries of the tree. -/
theorem Stands.resolve (hl : Tree.Closed ro.get) (h : Stands ro fs V m) (q : Path) :
    (resolve m.branches q).map Dentry.node = V.walk [] q := by
  obtain ⟨rw, hbr, -, -, hu, rfl⟩ := h
  rw [hbr]
  exact resolve_walk hu hl q

/-- The same off an entry that stands beside its whiteout. -/
theorem Torn.resolve_off (hl : Tree.Closed ro.get) (h : Torn ro fs V s n m) {q : Path}
    (hq : ¬ s ++ [n] <+: q) : (Aufs.resolve m.branches q).map Dentry.node = V.walk [] q := by
  obtain ⟨rw, hbr, -, -, hok, hu, -, -, hoff⟩ := h
  have hbad : ∀ r, r <+: [] ++ q → r ∉ ({s ++ [n]} : Set Path) := by
    rintro r hr rfl
    exact hq hr
  have hat := resolveFrom_at hu hl pathOk_nil rootDentry_at q hbad
  have hwalk : (union rw.get ro.get).walk [] q = V.walk [] q :=
    Tree.walk_congr fun r hr => hoff r fun hle => hq (hle.trans hr)
  rw [hbr, ← hwalk, Aufs.resolve]
  cases hw : (union rw.get ro.get).walk [] q with
  | error e =>
    rw [hw] at hat
    rw [show resolveFrom _ _ _ _ = _ from hat]
    rfl
  | ok x =>
    rw [hw] at hat
    obtain ⟨hok', rfl, d, hres, hd⟩ := hat
    rw [hres]
    exact congrArg Except.ok (hd.node hok')

/-- An entry beside its whiteout is refused. -/
theorem Torn.resolve_eio (hl : Tree.Closed ro.get) (h : Torn ro fs V s n m) :
    Aufs.resolve m.branches (s ++ [n]) = .error .eio := by
  obtain ⟨rw, hbr, hc, -, hok, hu, hentry, hwh, -⟩ := h
  obtain ⟨hs, hn⟩ := pathOk_concat.mp hok
  have hdir : rw.get s = some .dir := hc.parent s n hentry
  have hunion : union rw.get ro.get s = some .dir := union_of_upper hs hdir
  have hbad : s ∉ ({s ++ [n]} : Set Path) := by simp
  have hat := resolveFrom_at hu hl pathOk_nil rootDentry_at s (by
    rintro r hr rfl
    exact concat_not_le s n hr)
  rw [(union_closed hc).walk_eq (fun _ => pathOk_of_union) (s := []) (r := s)
    (by simp [hunion])] at hat
  obtain ⟨-, -, d, hres, hd⟩ := hat
  rw [List.nil_append] at hd
  have hfound : auWhTest rw s (whName n) = .ok true := by
    rw [auWhTest_of_reg s fun x hx => hu.whiteout s n x hs hn.1 hx,
      Option.isSome_iff_ne_none.mpr hwh]
  obtain ⟨x, hx⟩ := Option.ne_none_iff_exists'.mp hentry
  rw [hbr, Aufs.resolve, resolveFrom_concat, hres]
  simp only [Except.bind, hd.node hs, hunion, List.nil_append]
  rw [aufsLookup, if_neg (Nat.not_lt.mpr hn.2), hd.dirs hu hbad hl hunion, if_pos hdir]
  simp [auLkupDentry, hn.1, auLkupLoop, auDoLookup, auBrWhable, hfound, hx, bind, Except.bind,
    Dentry.dbstart, throw, throwThe, MonadExceptOf.throw, pure, Except.pure]

end Cut

/-! ## Runs -/

/-- Calls one after another, with their replies. -/
def performAll : List (Path × String × Syscall) → Exec (List (Except Errno Unit))
  | [] => return []
  | c :: cs => do
    let r ← Trial.attempt (perform c.1 c.2.1 c.2.2)
    let rs ← performAll cs
    return r :: rs

/-- Calls on a plain tree, where those that fail have no effect; the error is that of the plain
tree, unless there are faults. -/
inductive Runs (faulty : Prop) :
    Tree → List (Path × String × Syscall) → List (Except Errno Unit) → Tree → Prop
  | nil (V : Tree) : Runs faulty V [] [] V
  | done {V V₁ V' : Tree} {dir : Path} {name : String} {call : Syscall}
      {cs : List (Path × String × Syscall)} {rs : List (Except Errno Unit)}
      (h : plain V dir name call = .ok V₁) (hrest : Runs faulty V₁ cs rs V') :
      Runs faulty V ((dir, name, call) :: cs) (.ok () :: rs) V'
  | refused {V V' : Tree} {dir : Path} {name : String} {call : Syscall} {e : Errno}
      {cs : List (Path × String × Syscall)} {rs : List (Except Errno Unit)}
      (h : plain V dir name call = .error e ∨ faulty) (hrest : Runs faulty V cs rs V') :
      Runs faulty V ((dir, name, call) :: cs) (.error e :: rs) V'

theorem Runs.mono {P Q : Prop} {V V' : Tree} {cs : List (Path × String × Syscall)}
    {rs : List (Except Errno Unit)} (h : Runs P V cs rs V') (hPQ : P → Q) : Runs Q V cs rs V' := by
  induction h with
  | nil V => exact .nil V
  | done hplain _ ih => exact .done hplain ih
  | refused hwhy _ ih => exact .refused (hwhy.imp_right hPQ) ih

section Run

variable {O : Prop} {ro rw : Files} {fs : List (Option Errno)} {V : Tree} {m : Mount}

theorem performAll_true (hO : O) (cs : List (Path × String × Syscall)) :
    Spec O (fun _ => True) (fun _ => True) (performAll cs) (fun _ _ => True) fun _ _ => False := by
  induction cs with
  | nil => exact Trial.Triple.pure fun _ _ => trivial
  | cons c cs ih =>
    refine Trial.Triple.bind (fun _ _ => True) ?_ fun r => ?_
    · exact Trial.Triple.attempt ((Trial.Triple.of_true _).mono (fun _ h => h) (fun _ _ h => h)
        (fun _ _ h => h) fun _ _ _ => ⟨trivial, fun _ => hO⟩)
    · exact Trial.Triple.bind (fun _ _ => True) ih fun rs => Trial.Triple.pure fun _ _ => trivial

/-- Calls on the mount follow those on the plain tree, up to the first `EIO`; without a fault there is
no oops. -/
theorem performAll_spec (hl : LowerTree ro.get) (cs : List (Path × String × Syscall))
    (hdots : ∀ c ∈ cs, ¬ isDot c.2.1) (V : Tree) :
    Spec (Faulty fs) (fun _ => True) (Stands ro fs V) (performAll cs)
      (fun rs m => Faulty fs ∧ .error .eio ∈ rs ∨
        ∃ V', Runs (Faulty fs) V cs rs V' ∧ Stands ro fs V' m)
      fun _ _ => False := by
  induction cs generalizing V with
  | nil => exact Trial.Triple.pure fun m hm => .inr ⟨V, .nil V, hm⟩
  | cons c cs ih =>
    obtain ⟨dir, name, call⟩ := c
    have ih' := ih fun c hc => hdots c (List.mem_cons_of_mem _ hc)
    have hdot : ¬ isDot name := hdots (dir, name, call) List.mem_cons_self
    have hcall : Spec (Faulty fs) (fun _ => True) (Stands ro fs V) (perform dir name call)
        (fun _ => Done ro fs V dir name call) (Refused ro fs V dir name call) :=
      (perform_spec hl dir hdot call fun _ hf => hf).weaken fun _ _ => trivial
    -- the rest of the calls, after one that has failed without effect
    have hrefused : ∀ e, plain V dir name call = .error e ∨ Faulty fs →
        Spec (Faulty fs) (fun _ => True) (Stands ro fs V)
          (do
            let rs ← performAll cs
            return .error e :: rs)
          (fun rs m => Faulty fs ∧ .error .eio ∈ rs ∨
            ∃ V', Runs (Faulty fs) V ((dir, name, call) :: cs) rs V' ∧ Stands ro fs V' m)
          fun _ _ => False := by
      intro e hwhy
      refine Trial.Triple.bind _ (ih' V) fun rs => Trial.Triple.pure fun m hm => ?_
      rcases hm with ⟨hf, hmem⟩ | ⟨V', hruns, hm⟩
      · exact .inl ⟨hf, List.mem_cons_of_mem _ hmem⟩
      · exact .inr ⟨V', .refused hwhy hruns, hm⟩
    have heio : Faulty fs → Spec (Faulty fs) (fun _ => True) (fun _ => True)
        (do
          let rs ← performAll cs
          return .error .eio :: rs)
        (fun rs m => Faulty fs ∧ .error .eio ∈ rs ∨
          ∃ V', Runs (Faulty fs) V ((dir, name, call) :: cs) rs V' ∧ Stands ro fs V' m)
        fun _ _ => False := by
      intro hf
      refine Trial.Triple.bind _ (performAll_true hf cs) fun rs => Trial.Triple.pure fun m _ => ?_
      exact .inl ⟨hf, List.mem_cons_self⟩
    refine Spec.attempt_bind _ _ hcall (fun u => ?_) fun e => ?_
    · refine Spec.pre fun hplain => ?_
      refine Trial.Triple.bind _ (ih' _) fun rs => Trial.Triple.pure fun m hm => ?_
      rcases hm with ⟨hf, hmem⟩ | ⟨V', hruns, hm⟩
      · exact .inl ⟨hf, List.mem_cons_of_mem _ hmem⟩
      · exact .inr ⟨V', .done hplain hruns, hm⟩
    · intro m hm
      rcases hm with ⟨hplain, hV⟩ | ⟨hf, hV | ⟨rfl, -⟩⟩
      · exact hrefused e (.inl hplain) m hV
      · exact hrefused e (.inr hf) m hV
      · exact heio hf m trivial

/-- The `BUG()` of a run of calls is that of one of them. -/
theorem performAll_bugOnly (cs : List (Path × String × Syscall)) :
    Trial.Triple step (fun _ _ => True) (fun _ => True) (performAll cs) (fun _ _ => True)
      (fun _ _ => True) fun x m => x = .bug → ∃ c ∈ cs, Taken (c.1 ++ [c.2.1]) m := by
  induction cs with
  | nil => exact Trial.Triple.pure fun _ _ => trivial
  | cons c cs ih =>
    have hfirst := (perform_bugOnly c.1 c.2.1 c.2.2).attempt
    refine Trial.Triple.bind (fun _ _ => True) (Trial.Triple.mono hfirst (fun _ h => h)
      (fun _ _ h => h) (fun _ _ h => h) fun x m h hbug => ⟨c, List.mem_cons_self, h hbug⟩) fun r => ?_
    refine Trial.Triple.bind (fun _ _ => True) (ih.mono (fun _ h => h) (fun _ _ h => h)
      (fun _ _ h => h) fun x m h hbug => ?_) fun rs => Trial.Triple.pure fun _ _ => trivial
    obtain ⟨c', hc', htaken⟩ := h hbug
    exact ⟨c', List.mem_cons_of_mem _ hc', htaken⟩

theorem stands_of_branches (hu : Upper rw.get) (hbr : m.branches = mountBranches rw ro)
    (fs : List (Option Errno)) :
    Stands ro fs (union rw.get ro.get) { m with faults := fs } :=
  ⟨rw, hbr, hu.closed, List.suffix_refl _, hu, rfl⟩

/-- Off its entry a call leaves the tree as it was, wherever it stops. -/
theorem Reached.off {dir : Path} {name : String} {call : Syscall}
    (h : Reached ro fs V (V.after dir name call) dir name m) :
    ∃ rw', m.branches = mountBranches rw' ro ∧
      ∀ q, ¬ dir ++ [name] <+: q → union rw'.get ro.get q = V q := by
  rcases h with h | h | h | ⟨-, h⟩
  · obtain ⟨rw', hbr, -, -, -, rfl⟩ := h
    exact ⟨rw', hbr, fun q _ => rfl⟩
  · obtain ⟨rw', hbr, -, -, -, hV⟩ := h
    exact ⟨rw', hbr, fun q hq => by rw [hV, Tree.after_off hq]⟩
  · obtain ⟨rw', hbr, -, -, -, -, -, -, hoff⟩ := h
    exact ⟨rw', hbr, hoff⟩
  · obtain ⟨rw', hbr, -, -, -, hoff⟩ := h
    exact ⟨rw', hbr, hoff⟩

/-- A mount of the sample branches, where the fifth step that can fail does. -/
def sampleMount : Mount where
  branches := mountBranches sampleRw sampleRo
  faults := [none, none, none, none, some .enospc]

theorem not_isDot_sample : ¬ isDot "a" := by simp [isDot]

section Main

variable (hu : Upper rw.get) (hl : LowerTree ro.get) (hbr : m.branches = mountBranches rw ro)
include hu hl hbr

/-- **Runs of system calls on the mount are runs on the plain tree**, up to the first `EIO`; where
no step fails every reply is that of the plain tree. The kernel stops only where three temporary names
are taken, or after a step has failed. -/
theorem performAll_runs (cs : List (Path × String × Syscall)) (hdots : ∀ c ∈ cs, ¬ isDot c.2.1) :
    match Prog.run step (performAll cs).run m with
    | (.ok (.ok rs), m') => m.Failed m' ∧ .error .eio ∈ rs ∨
        ∃ rw', m'.branches = mountBranches rw' ro ∧ Upper rw'.get ∧
          Runs (m.Failed m') (union rw.get ro.get) cs rs (union rw'.get ro.get)
    | (.ok (.error _), _) => False
    | (.error x, m') => x = .bug ∧ (∃ c ∈ cs, Taken (c.1 ++ [c.2.1]) m') ∨
        x = .oops ∧ m.Failed m' := by
  obtain ⟨used, hused, heq⟩ := run_faults m (performAll cs).run
  have hbug := (performAll_bugOnly cs).run (s := m) trivial
  have hrun := (performAll_spec hl cs hdots _).run (stands_of_branches hu hbr used)
  rw [heq] at hrun
  rcases hr : Prog.run step (performAll cs).run m with ⟨x | e | rs, m'⟩ <;>
    rw [hr] at hrun hbug hused
  · cases x with
    | bug => exact .inl ⟨rfl, hbug rfl⟩
    | oops => exact .inr ⟨rfl, used, hused, hrun.2 rfl⟩
  · exact hrun
  · have hfailed : Faulty used → m.Failed m' := fun hf => ⟨used, hused, hf⟩
    rcases hrun with ⟨hf, heio⟩ | ⟨V', hruns, rw', hbr', -, -, hu', hV⟩
    · exact .inl ⟨hfailed hf, heio⟩
    · exact .inr ⟨rw', hbr', hu', hV ▸ hruns.mono hfailed⟩

omit hu hl hbr in
/-- The same, and then a directory over the whiteout that is removed again. -/
theorem performAll_runs_sample :
    ∃ rw', (Prog.run step (performAll
        [([], "a", .create), ([], "a", .mkdir), ([], "a", .rmdir)]).run sampleMount).2.branches =
        mountBranches rw' sampleRo ∧ Upper rw'.get ∧
      Runs (sampleMount.Failed (Prog.run step (performAll
          [([], "a", .create), ([], "a", .mkdir), ([], "a", .rmdir)]).run sampleMount).2)
        (union sampleRw.get sampleRo.get)
        [([], "a", .create), ([], "a", .mkdir), ([], "a", .rmdir)]
        [.error .enospc, .ok (), .ok ()] (union rw'.get sampleRo.get) := by
  have h := performAll_runs upper_sample lowerTree_sample (m := sampleMount) rfl
    [([], "a", .create), ([], "a", .mkdir), ([], "a", .rmdir)] (by simp [isDot])
  refine Or.resolve_left h fun h => ?_
  have hmem : (.error .eio : Except Errno Unit) ∈ [.error .enospc, .ok (), .ok ()] := h.2
  simp at hmem

/-- **A call that is cut short**, by a power failure after any number of its commands, leaves every
other path as it was. The entry is as before or as after the call, or a lookup refuses it with
`EIO`, unless some step had failed before. -/
theorem perform_cut (dir : Path) {name : String} (hdot : ¬ isDot name) (call : Syscall) (k : ℕ) :
    (∀ q, ¬ dir ++ [name] <+: q →
      (resolve (Prog.cut step k (perform dir name call).run m).branches q).map Dentry.node =
        (union rw.get ro.get).walk [] q) ∧
      ((∀ q, (resolve (Prog.cut step k (perform dir name call).run m).branches q).map Dentry.node =
          (union rw.get ro.get).walk [] q) ∨
        (∃ V', plain (union rw.get ro.get) dir name call = .ok V' ∧ ∀ q,
          (resolve (Prog.cut step k (perform dir name call).run m).branches q).map Dentry.node =
            V'.walk [] q) ∨
        resolve (Prog.cut step k (perform dir name call).run m).branches (dir ++ [name]) =
          .error .eio ∨
        m.Failed (Prog.cut step k (perform dir name call).run m)) := by
  -- the mount with the faults up to the cut takes the same steps
  obtain ⟨used, hused, heq⟩ := cut_faults m (perform dir name call).run k
  have hcut : Reached ro used (union rw.get ro.get) ((union rw.get ro.get).after dir name call)
      dir name { Prog.cut step k (perform dir name call).run m with faults := [] } := by
    rw [← heq]
    refine (perform_spec hl dir hdot call fun _ _ => trivial).cut
      (fun _ m hm => .inr (.inl hm.2)) (fun e m hm => ?_) (fun _ _ h => h.1)
      (stands_of_branches hu hbr used) k
    rcases hm with hm | ⟨-, hm | hm⟩
    · exact .inl hm.2
    · exact .inl hm
    · exact hm.2
  generalize Prog.cut step k (perform dir name call).run m = m₁ at hcut hused
  generalize hm' : ({ m₁ with faults := [] } : Mount) = m' at hcut
  have hbranches : m₁.branches = m'.branches := by rw [← hm']
  rw [hbranches]
  rcases hcut with h | h | h | ⟨hf, h⟩
  · -- the tree before the call
    exact ⟨fun q _ => h.resolve hl.closed q, .inl (h.resolve hl.closed)⟩
  · -- the tree after it
    refine ⟨fun q hq => ?_, ?_⟩
    · rw [h.resolve hl.closed q]
      exact Tree.walk_congr fun r hr => Tree.after_off fun hle => hq (hle.trans hr)
    · rw [Tree.after] at h
      cases hp : plain (union rw.get ro.get) dir name call with
      | error e =>
        rw [hp] at h
        exact .inl (h.resolve hl.closed)
      | ok V' =>
        rw [hp] at h
        exact .inr (.inl ⟨V', rfl, h.resolve hl.closed⟩)
  · -- the entry beside its whiteout
    exact ⟨fun q hq => h.resolve_off hl.closed hq, .inr (.inr (.inl (h.resolve_eio hl.closed)))⟩
  · -- the whiteout is lost
    refine ⟨fun q hq => ?_, .inr (.inr (.inr ⟨used, hused, hf⟩))⟩
    obtain ⟨rw', hbr', -, -, hu', hoff⟩ := h
    rw [hbr', resolve_walk hu' hl.closed]
    exact Tree.walk_congr fun r hr => hoff r fun hle => hq (hle.trans hr)

omit hu hl hbr in
/-- A directory over a whiteout, cut when it stands beside it, before its marker is refused. -/
theorem perform_cut_sample :
    (resolve (Prog.cut step 7 (perform [] "a" .mkdir).run sampleMount).branches ["b"]).map
        Dentry.node = (union sampleRw.get sampleRo.get).walk [] ["b"] ∧
      ((∀ q, (resolve (Prog.cut step 7 (perform [] "a" .mkdir).run sampleMount).branches q).map
          Dentry.node = (union sampleRw.get sampleRo.get).walk [] q) ∨
        (∃ V', plain (union sampleRw.get sampleRo.get) [] "a" .mkdir = .ok V' ∧ ∀ q,
          (resolve (Prog.cut step 7 (perform [] "a" .mkdir).run sampleMount).branches q).map
            Dentry.node = V'.walk [] q) ∨
        resolve (Prog.cut step 7 (perform [] "a" .mkdir).run sampleMount).branches ["a"] =
          .error .eio ∨
        sampleMount.Failed (Prog.cut step 7 (perform [] "a" .mkdir).run sampleMount)) := by
  have h := perform_cut upper_sample lowerTree_sample (m := sampleMount) rfl [] not_isDot_sample
    .mkdir 7
  exact ⟨h.1 ["b"] (by simp), h.2⟩

end Main

end Run

end Meta3dr.Aufs
