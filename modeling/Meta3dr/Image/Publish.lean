import Meta3dr.Image.Contents
import Meta3dr.Properties.Choice
import Meta3dr.Properties.Reset

/-!
# The published pairs

`generate_imx_sdcard` publishes the update tarball and its checksum list twice: as files whose names
carry the time of the build, and as links without it. Both lists are one file, which records the
tarball under its dated name. `init` looks this name up beside the tarball, and so accepts the dated
pair and rejects the undated one.

## Main definitions

* `Build.publish`: the files and links of the deploy directory
* `Pair`, `Build.pairName`: the two pairs
* `Delivered`: a pair copied into the directory of the updates, as the only tarball there
* `InstallsFiles`: a boot installs exactly these files

## Main results

* `verdict_delivered`: what `init` makes of a pair
* `installsFiles_iff`: exactly the dated pair is installed
* `not_installsFiles`: an undated pair
-/

namespace Meta3dr.Image

open Shell Program

/-! ## The deploy directory -/

/-- An entry of the deploy directory: a file, or a link to another name in it. -/
inductive Published
  | file (content : Text)
  | link (name : Text)

/-- The content that a name leads to. -/
def content (es : List (Text × Published)) (name : Text) : Option Text :=
  match es.lookup name with
  | some (.file t) => some t
  | some (.link target) =>
    match es.lookup target with
    | some (.file t) => some t
    | _ => none
  | none => none

/-- The two pairs of a tarball and its list. -/
inductive Pair
  | dated | undated
  deriving DecidableEq

namespace Build

variable (b : Build)

/-- `${IMAGE_BASENAME}-${DATETIME}.tar.gz` -/
def tarballName : Text := b.imageBasename ++ '-' :: b.datetime ++ tarGz

/-- What `md5sum` prints for the tarball. -/
def checksums (md5 : Text → Text) (tarball : Text) : Text :=
  unlines [checksumLine (md5 tarball) b.tarballName]

/-- The tarball, its list, and the links to them. -/
def publish (md5 : Text → Text) (tarball : Text) : List (Text × Published) :=
  [(b.tarballName, .file tarball),
    (md5Name b.tarballName, .file (b.checksums md5 tarball)),
    (b.imageBasename ++ tarGz, .link b.tarballName),
    (md5Name (b.imageBasename ++ tarGz), .link (md5Name b.tarballName))]

/-- The name under which a pair has its tarball. -/
def pairName : Pair → Text
  | .dated => b.tarballName
  | .undated => b.imageBasename ++ tarGz

/-- The names of the build are single words. -/
def Named : Prop := ∀ c ∈ b.imageBasename ++ b.datetime, isBlank c = false ∧ c ≠ '/'

section Names

variable {b} {md5 : Text → Text} {tarball : Text}

theorem undated_ne : b.imageBasename ++ tarGz ≠ b.tarballName := fun h => by
  have hlen := congrArg List.length h
  simp only [tarballName, List.length_append, List.length_cons] at hlen
  omega

theorem md5Name_injective {n m : Text} (h : md5Name n = md5Name m) : n = m :=
  List.append_cancel_right h

theorem md5Name_ne (n m : Text) : md5Name n ≠ m ++ tarGz := fun h => by
  have hlast := congrArg List.getLast? h
  simp [md5Name, tarGz] at hlast

theorem pairName_eq (p : Pair) : ∃ q, b.pairName p = q ++ tarGz := by
  cases p with
  | dated => exact ⟨_, rfl⟩
  | undated => exact ⟨_, rfl⟩

/-- Both names lead to the tarball. -/
theorem content_tarball (p : Pair) : content (b.publish md5 tarball) (b.pairName p) = some tarball := by
  cases p with
  | dated => simp [content, publish, pairName]
  | undated =>
    have hne : (b.imageBasename ++ tarGz == b.tarballName) = false := by
      simpa using @undated_ne b
    have hlist : (b.imageBasename ++ tarGz == md5Name b.tarballName) = false := by
      simpa using (md5Name_ne b.tarballName b.imageBasename).symm
    simp [content, publish, pairName, List.lookup, hne, hlist]

/-- Both lists record the tarball under its dated name. -/
theorem content_list (p : Pair) : content (b.publish md5 tarball) (md5Name (b.pairName p)) =
    some (b.checksums md5 tarball) := by
  have htar : ∀ n, (md5Name n == b.tarballName) = false := fun n => by
    simpa [tarballName] using md5Name_ne n (b.imageBasename ++ '-' :: b.datetime)
  cases p with
  | dated => simp [content, publish, pairName, List.lookup, htar]
  | undated =>
    have hlink : (md5Name (b.imageBasename ++ tarGz) == b.imageBasename ++ tarGz) = false := by
      simpa using md5Name_ne (b.imageBasename ++ tarGz) b.imageBasename
    have hdated : (md5Name (b.imageBasename ++ tarGz) == md5Name b.tarballName) = false := by
      simpa using fun h => undated_ne (md5Name_injective h)
    simp [content, publish, pairName, List.lookup, htar, hlink, hdated]

end Names

end Build

/-! ## A pair on LOG -/

/-- A pair copied under its published names into the directory of the updates, in the files of LOG,
as the only tarball there; where its name is a pattern it has the only list, too. -/
structure Delivered (md5 : Text → Text) (b : Build) (tarball : Text) (p : Pair) (fs : Files) :
    Prop where
  file : fs.get ["updates", String.ofList (b.pairName p)] =
    (content (b.publish md5 tarball) (b.pairName p)).map .file
  list : fs.get ["updates", String.ofList (md5Name (b.pairName p))] =
    (content (b.publish md5 tarball) (md5Name (b.pairName p))).map .file
  only : ∀ q n, fs.get (["updates"] ++ q ++ [n]) ≠ none → tarGz <:+ n.toList →
    q = [] ∧ n = String.ofList (b.pairName p)
  onlyList : hasMagic (b.pairName p) = true →
    ∀ n, fs.get ["updates", n] ≠ none → md5Name tarGz <:+ n.toList →
      n = String.ofList (md5Name (b.pairName p))

/-- The word for an entry of the directory of the updates. -/
abbrev wordOf (n : Text) : Text := pathText (updates ++ [String.ofList n])

section Words

variable {b : Build} {p : Pair} {s : Machine} {n m : Text}

theorem pairName_blankless (hb : b.Named) : ∀ c ∈ b.pairName p, isBlank c = false ∧ c ≠ '/' := by
  have htar : ∀ c ∈ tarGz, isBlank c = false ∧ c ≠ '/' := List.all_iff_forall_prop.mp (by decide)
  intro c hc
  cases p with
  | dated =>
    simp only [Build.pairName, Build.tarballName, List.mem_append, List.mem_cons] at hc
    rcases hc with (hc | rfl | hc) | hc
    · exact hb c (List.mem_append_left _ hc)
    · decide
    · exact hb c (List.mem_append_right _ hc)
    · exact htar c hc
  | undated =>
    rcases List.mem_append.mp hc with hc | hc
    · exact hb c (List.mem_append_left _ hc)
    · exact htar c hc

/-- A name without slashes that is long enough denotes an entry. -/
theorem plainName_ofList (hlen : 2 < n.length) (h : ∀ c ∈ n, isBlank c = false ∧ c ≠ '/') :
    PlainName (String.ofList n) := by
  have hne : ∀ u : String, u.toList.length ≤ 2 → String.ofList n ≠ u := fun u hu he => by
    rw [← he, String.toList_ofList] at hu
    omega
  refine ⟨hne _ (by decide), hne _ (by decide), hne _ (by decide), fun hc => ?_⟩
  rw [String.toList_ofList] at hc
  exact (h _ hc).2 rfl

theorem md5Name_wordOf (n : Text) : md5Name (wordOf n) = wordOf (md5Name n) := by
  simp only [wordOf, pathText_concat, md5Name, String.toList_ofList, List.append_assoc]

theorem wordOf_blankless (hn : ∀ c ∈ n, isBlank c = false ∧ c ≠ '/') :
    ∀ c ∈ wordOf n, isBlank c = false := by
  have hdir : ∀ c ∈ '/' :: updates.flatMap fun d => d.toList ++ ['/'], isBlank c = false :=
    List.all_iff_forall_prop.mp (by decide)
  intro c hc
  rw [wordOf, pathText_concat, String.toList_ofList] at hc
  exact (List.mem_append.mp hc).elim (hdir c) fun hc => (hn c hc).1

theorem wordOf_ne_nil : wordOf n ≠ [] := by
  rw [wordOf, pathText_concat]
  simp

/-- A word for an entry of the directory of the updates stays as it is when no other entry matches
it. -/
theorem words_updates (hs : s.LogMounted) (hlen : 2 < n.length)
    (hn : ∀ c ∈ n, isBlank c = false ∧ c ≠ '/')
    (honly : hasMagic n = true → ∀ u, (s.card.files .p4).get ["updates", u] ≠ none →
      matchTokens (parsePattern n) u.toList = true → u = String.ofList n) :
    s.words (wordOf n) = [wordOf n] := by
  have htree : s.treeOf updates = s.card.files .p4 := by
    rw [Machine.treeOf, hs ["updates"]]
    rfl
  have hnames : s.names updates = (s.card.files .p4).names ["updates"] := by
    rw [Machine.names, htree, hs.below ["updates"]]
  have hdirs : ∀ d ∈ updates, PlainName d ∧ hasMagic d.toList = false :=
    List.all_iff_forall_prop.mp (by decide)
  rw [Machine.words, expand, fields_of_blankless wordOf_ne_nil (wordOf_blankless hn),
    List.flatMap_singleton]
  refine expandWord_only _ _ _ hdirs (plainName_ofList hlen hn) ?_ fun u hu hmagic hmatch => ?_
  · rw [hnames]
    exact Files.nodup_names _ _
  · rw [hnames] at hu
    rw [String.toList_ofList] at hmagic hmatch
    exact honly hmagic u (Files.get_of_mem_names hu) hmatch

theorem pathOf_wordOf (hlen : 2 < n.length) (hn : ∀ c ∈ n, isBlank c = false ∧ c ≠ '/')
    (cwd : Path) : pathOf cwd (wordOf n) = updates ++ [String.ofList n] := by
  have hdirs : ∀ d ∈ updates, PlainName d := List.all_iff_forall_prop.mp (by decide)
  refine pathOf_pathText cwd _ (by simp) fun c hc => ?_
  rcases List.mem_append.mp hc with hc | hc
  · exact hdirs c hc
  · exact List.mem_singleton.mp hc ▸ plainName_ofList hlen hn

/-- A file in the directory of the updates. -/
theorem read_updates (hs : s.LogMounted) {t : Text}
    (hget : (s.card.files .p4).get ["updates", String.ofList n] = some (.file t)) :
    s.read (updates ++ [String.ofList n]) = some t := by
  have hn : s.get (updates ++ [String.ofList n]) = some (.file t) := (hs.get _).trans hget
  have hlink : ∀ u, s.get (updates ++ [String.ofList n]) ≠ some (.link u) := fun u hu => by
    rw [hn] at hu
    cases hu
  rw [Machine.read, Machine.stat_of_get _ hlink, hn]

theorem length_pairName : 2 < (b.pairName p).length := by
  obtain ⟨q, hq⟩ := b.pairName_eq p
  rw [hq]
  simp [tarGz]

theorem md5Name_blankless (hn : ∀ c ∈ n, isBlank c = false ∧ c ≠ '/') :
    ∀ c ∈ md5Name n, isBlank c = false ∧ c ≠ '/' := by
  have hend : ∀ c ∈ ".md5".toList, isBlank c = false ∧ c ≠ '/' :=
    List.all_iff_forall_prop.mp (by decide)
  exact fun c hc => (List.mem_append.mp hc).elim (hn c) (hend c)

theorem length_md5Name (hlen : 2 < n.length) : 2 < (md5Name n).length := by
  rw [md5Name, List.length_append]
  omega

end Words

section Delivered

variable {md5 : Text → Text} {b : Build} {tarball : Text} {p : Pair} {fs fs' : Files}

/-- Removing `READY` removes nothing of a pair. -/
theorem Delivered.congr (h : Delivered md5 b tarball p fs)
    (hfs : ∀ q ≠ ["updates", "READY"], fs'.get q = fs.get q) : Delivered md5 b tarball p fs' := by
  have hready : ∀ (q : Path) (n : String) (suf : Text), suf <:+ n.toList →
      ¬ suf <:+ "READY".toList → fs'.get (["updates"] ++ q ++ [n]) =
        fs.get (["updates"] ++ q ++ [n]) := by
    intro q n suf hn hnot
    refine hfs _ fun he => ?_
    have hlast := congrArg List.getLast? he
    rw [List.getLast?_concat] at hlast
    obtain rfl : n = "READY" := by simpa using hlast
    exact hnot hn
  obtain ⟨q, hq⟩ := b.pairName_eq p
  have hfile : tarGz <:+ (String.ofList (b.pairName p)).toList := by
    rw [String.toList_ofList, hq]
    exact List.suffix_append _ _
  have hlist : md5Name tarGz <:+ (String.ofList (md5Name (b.pairName p))).toList := by
    rw [String.toList_ofList, hq, md5Name, md5Name, List.append_assoc]
    exact List.suffix_append _ _
  refine ⟨(hready [] _ tarGz hfile (by decide)).trans h.file,
    (hready [] _ _ hlist (by decide)).trans h.list, fun q n hn hsuf => ?_, fun hmagic n hn hsuf => ?_⟩
  · rw [hready q n tarGz hsuf (by decide)] at hn
    exact h.only q n hn hsuf
  · have hget := hready [] n (md5Name tarGz) hsuf (by decide)
    exact h.onlyList hmagic n (fun hnone => hn (hget.trans hnone)) hsuf

end Delivered

/-! ## What `init` makes of a pair -/

section Reading

variable {w : World} {b : Build} {tarball : Text} {p : Pair} {s : Machine} (hs : s.LogMounted)
  (hb : b.Named) (h : Delivered w.md5 b tarball p (s.card.files .p4))
include hs hb h

/-- The tarball's word stays as it is. -/
theorem words_tarball : s.words (wordOf (b.pairName p)) = [wordOf (b.pairName p)] := by
  obtain ⟨q, hq⟩ := b.pairName_eq p
  refine words_updates hs length_pairName (pairName_blankless hb) fun _ u hu hmatch => ?_
  rw [hq] at hmatch
  have hplain : ∀ c ∈ tarGz, IsPlain c := List.all_iff_forall_prop.mp (by decide)
  exact (h.only [] u hu (matches_suffix hplain hmatch)).2

/-- The list's word stays as it is. -/
theorem words_list : s.words (md5Name (wordOf (b.pairName p))) =
    [md5Name (wordOf (b.pairName p))] := by
  obtain ⟨q, hq⟩ := b.pairName_eq p
  have hmd5 : md5Name (b.pairName p) = q ++ md5Name tarGz := by
    rw [hq, md5Name, md5Name, List.append_assoc]
  rw [md5Name_wordOf]
  refine words_updates hs (length_md5Name length_pairName)
    (md5Name_blankless (pairName_blankless hb)) fun hmagic u hu hmatch => ?_
  have hplain : ∀ c ∈ md5Name tarGz, IsPlain c := List.all_iff_forall_prop.mp (by decide)
  rw [hmd5] at hmatch
  refine h.onlyList ?_ u hu (matches_suffix hplain hmatch)
  have hnone : hasMagic ".md5".toList = false := by decide
  rw [md5Name, hasMagic, List.any_append, ← hasMagic, ← hasMagic, hnone, Bool.or_false] at hmagic
  exact hmagic

/-- The tarball is all that `find` prints. -/
theorem found_delivered : wordOf (b.pairName p) ∈ s.found updates tarGz ∧
    ∀ t ∈ s.found updates tarGz, t = wordOf (b.pairName p) := by
  obtain ⟨q, hq⟩ := b.pairName_eq p
  have htree : s.treeOf updates = s.card.files .p4 := by
    rw [Machine.treeOf, hs ["updates"]]
    rfl
  have hall : ∀ t ∈ ((s.card.files .p4).find ["updates"] tarGz).map
      (fun p => pathText (updates ++ p.drop 1)), t = wordOf (b.pairName p) := by
    rintro t ht
    obtain ⟨r, hr, rfl⟩ := List.mem_map.mp ht
    obtain ⟨⟨u, hu⟩, ⟨r, rfl⟩, n, hn, hsuf⟩ := Files.mem_find.mp hr
    have hr : r = r.dropLast ++ [n] := (List.dropLast_append_getLast? n hn).symm
    have hget : (s.card.files .p4).get (["updates"] ++ r.dropLast ++ [n]) ≠ none := by
      rw [List.append_assoc, ← hr, Files.get_of_ne_nil _ (by simp), hu]
      simp
    obtain ⟨hnil, rfl⟩ := h.only _ n hget hsuf
    rw [hnil] at hr
    rw [hr]
    rfl
  have hfind : ["updates", String.ofList (b.pairName p)] ∈
      (s.card.files .p4).find ["updates"] tarGz := by
    have hget := h.file
    rw [Build.content_tarball, Option.map_some, Files.get_of_ne_nil _ (by simp)] at hget
    refine Files.mem_find.mpr ⟨⟨_, hget⟩, ⟨_, rfl⟩, String.ofList (b.pairName p), rfl, ?_⟩
    rw [String.toList_ofList, hq]
    exact List.suffix_append _ _
  have hline : '\n' ∉ wordOf (b.pairName p) := fun hnl =>
    absurd (wordOf_blankless (pairName_blankless hb) _ hnl) (by decide)
  have hlines : s.found updates tarGz = ((s.card.files .p4).find ["updates"] tarGz).map
      fun p => pathText (updates ++ p.drop 1) := by
    rw [Machine.found, htree, hs.below ["updates"]]
    exact lines_unlines fun t ht => hall t ht ▸ hline
  rw [hlines]
  exact ⟨List.mem_map.mpr ⟨_, hfind, rfl⟩, hall⟩

/-- The tarball is chosen. -/
theorem chosen_delivered : chosen s = wordOf (b.pairName p) := by
  obtain ⟨hmem, hall⟩ := found_delivered hs hb h
  have hblank := wordOf_blankless (pairName_blankless hb (p := p))
  have hword : expandWord s.names s.isThere s.cwd (wordOf (b.pairName p)) =
      [wordOf (b.pairName p)] := by
    have hwords := words_tarball hs hb h
    rwa [Machine.words, expand, fields_of_blankless wordOf_ne_nil hblank,
      List.flatMap_singleton] at hwords
  have hsorted : ∀ t ∈ sortLines (s.found updates tarGz), t = wordOf (b.pairName p) :=
    fun t ht => hall t (mem_sortLines.mp ht)
  have hlast : ∃ t, (sortLines (s.found updates tarGz)).getLast? = some t :=
    Option.isSome_iff_exists.mp (List.getLast?_isSome.mpr
      (List.ne_nil_of_mem (mem_sortLines.mpr hmem)))
  obtain ⟨t, ht⟩ := hlast
  rw [chosen, Machine.words, expand_unlines, foldl_last, ht, Option.getD_some]
  · exact hsorted t (List.mem_of_getLast? ht)
  · exact fun t ht => hsorted t ht ▸ wordOf_ne_nil
  · exact fun t ht => hsorted t ht ▸ hblank
  · exact fun t ht => hsorted t ht ▸ hword

/-- The digest that a check finds for the recorded name: only the dated pair has the tarball under
it. -/
theorem digestOf_delivered : s.inUpdates.digestOf w.md5 b.tarballName =
    if p = .dated then some (w.md5 tarball) else none := by
  have hu : s.inUpdates.LogMounted := hs.of_mounts rfl
  have hplain : PlainName (String.ofList b.tarballName) :=
    plainName_ofList (length_pairName (p := .dated)) (pairName_blankless (p := .dated) hb)
  have hpath : pathOf s.inUpdates.cwd b.tarballName = updates ++ [String.ofList b.tarballName] := by
    have hname := pathOf_name updates hplain
    rwa [String.toList_ofList] at hname
  rw [Machine.digestOf, hpath]
  cases p with
  | dated =>
    have hfile := h.file
    rw [Build.content_tarball] at hfile
    exact congrArg (Option.map w.md5) (read_updates hu hfile)
  | undated =>
    have hnone : s.inUpdates.get (updates ++ [String.ofList b.tarballName]) = none := by
      refine (hu.get _).trans (by_contra fun hne => ?_)
      obtain ⟨-, hname⟩ := h.only [] (String.ofList b.tarballName) hne (by
        rw [String.toList_ofList, Build.tarballName]
        exact List.suffix_append _ _)
      exact Build.undated_ne (String.ofList_injective hname).symm
    rw [Machine.read_none _ hnone]
    rfl

/-- The checker's line for the list of a pair. -/
theorem md5sumCheck_delivered (hdigest : ∀ c ∈ w.md5 tarball, isBlank c = false) :
    s.inUpdates.md5sumCheck w.md5 [md5Name (wordOf (b.pairName p))] =
      [(b.tarballName ++ [':']) ++ ' ' :: if p = .dated then "OK".toList else "FAILED".toList] := by
  have hu : s.inUpdates.LogMounted := hs.of_mounts rfl
  have hname := pairName_blankless (p := .dated) hb
  have hread : s.inUpdates.read (pathOf s.inUpdates.cwd (md5Name (wordOf (b.pairName p)))) =
      some (b.checksums w.md5 tarball) := by
    have hlist := h.list
    rw [Build.content_list] at hlist
    rw [md5Name_wordOf, pathOf_wordOf (length_md5Name length_pairName)
      (md5Name_blankless (pairName_blankless hb)), read_updates hu hlist]
  have hline : '\n' ∉ checksumLine (w.md5 tarball) b.tarballName := by
    simp only [checksumLine, List.mem_append, not_or]
    refine ⟨⟨fun hc => ?_, by decide⟩, fun hc => ?_⟩
    · exact absurd (hdigest _ hc) (by decide)
    · exact absurd (hname _ hc).1 (by decide)
  have hblank : ' ' ∉ w.md5 tarball := fun hc => absurd (hdigest _ hc) (by decide)
  have hrecords : records (b.checksums w.md5 tarball) = [(w.md5 tarball, b.tarballName)] := by
    rw [records, Build.checksums, lines_unlines (by simpa using hline)]
    simp [parseChecksum_checksumLine hblank]
  rw [Machine.md5sumCheck, List.flatMap_singleton, hread, Option.map_some, Option.getD_some,
    checkLines, hrecords, List.map_singleton, Shell.verdict, digestOf_delivered hs hb h]
  by_cases hp : p = .dated <;> simp [hp]

/-- The check passes exactly for the dated pair. -/
theorem md5Passes_delivered (hdigest : ∀ c ∈ w.md5 tarball, isBlank c = false) :
    md5Passes w s.inUpdates (wordOf (b.pairName p)) = decide (p = .dated) := by
  have hu : s.inUpdates.LogMounted := hs.of_mounts rfl
  have hname := pairName_blankless (p := .dated) hb
  have hfirst : ∀ c ∈ b.tarballName ++ [':'], isBlank c = false := fun c hc =>
    (List.mem_append.mp hc).elim (fun hc => (hname c hc).1) fun hc => by
      rw [List.mem_singleton.mp hc]
      rfl
  -- the second word of the line is a word of its own
  have hwords : ∀ v ∈ ["OK".toList, "FAILED".toList],
      s.inUpdates.words (unlines [secondField ((b.tarballName ++ [':']) ++ ' ' :: v)]) = [v] := by
    intro v hv
    have hv' : v ≠ [] ∧ (∀ c ∈ v, isBlank c = false) ∧ hasMagic v = false := by
      simp only [List.mem_cons, List.not_mem_nil, or_false] at hv
      rcases hv with rfl | rfl
      · exact ⟨by simp, List.all_iff_forall_prop.mp (by decide), by decide⟩
      · exact ⟨by simp, List.all_iff_forall_prop.mp (by decide), by decide⟩
    rw [secondField_append (by simp) hv'.1 hfirst hv'.2.1, Machine.words]
    refine expand_unlines _ _ _ ?_ ?_ ?_
    · simpa using hv'.1
    · simpa using hv'.2.1
    · simpa using expandWord_of_not_magic _ _ _ hv'.2.2
  rw [md5Passes, words_list hu hb h, md5sumCheck_delivered hs hb h hdigest, List.map_singleton]
  cases p with
  | dated =>
    simp only [if_true]
    rw [hwords _ (by simp)]
    rfl
  | undated =>
    simp only [reduceCtorEq, if_false]
    rw [hwords _ (by simp)]
    rfl

/-- **`init` accepts the dated pair, and finds the undated one damaged.** -/
theorem verdict_delivered (hdigest : ∀ c ∈ w.md5 tarball, isBlank c = false) :
    verdict w s = if p = .dated then .accepted else .md5Failed := by
  have hthere : s.wordIsThere (md5Name (wordOf (b.pairName p))) = true := by
    have hlist := h.list
    rw [Build.content_list] at hlist
    rw [md5Name_wordOf, Machine.wordIsThere, pathOf_wordOf (length_md5Name length_pairName)
      (md5Name_blankless (pairName_blankless hb))]
    exact s.isThere_of_read (read_updates hs hlist)
  have hnonempty : s.test w.odd ("-z".toList :: s.words (wordOf (b.pairName p))) = false := by
    rw [words_tarball hs hb h]
    simp [Machine.test, bracket, wordOf_ne_nil]
  have hmissing : s.test w.odd
      ("!".toList :: "-e".toList :: s.words (md5Name (wordOf (b.pairName p)))) = false := by
    rw [words_list hs hb h]
    simp [Machine.test, bracket, hthere]
  rw [Meta3dr.verdict, chosen_delivered hs hb h, hnonempty, hmissing,
    md5Passes_delivered hs hb h hdigest]
  by_cases hp : p = .dated <;> simp [hp]

end Reading

/-! ## What is installed -/

/-- A canonical card with a LOG that can be repaired, a request for an update, and a pair as the only
tarball; `members` are the files of the tarball. The names of the build and the digest are single
words. -/
structure Offered (w : World) (b : Build) (tarball : Text) (members : List (Path × Text)) (p : Pair)
    (c : Card) : Prop where
  canonical : c.Canonical
  log : c.fsckStatus .p4 .ext3 < 4
  unforced : forced w c = false
  update : (withLog w c).isThere UPDATE = true
  pair : Delivered w.md5 b tarball p (c.files .p4)
  members : w.untar tarball = some members
  named : b.Named
  digest : ∀ c ∈ w.md5 tarball, isBlank c = false

/-- The update is accepted, and LATEST receives exactly these files. -/
def InstallsFiles (w : World) (members : List (Path × Text)) (c : Card) : Prop :=
  installs w {} c = true ∧ ∃ c' fs, Restarts w {} c c' ∧ c'.holds .p2 = some fs ∧
    fs.files = (∅ : Files).extract members

section Offered

variable {w : World} {b : Build} {tarball : Text} {members : List (Path × Text)} {p : Pair} {c : Card}
  (h : Offered w b tarball members p c)
include h

/-- The pair is still there when the branch chooses. -/
theorem Offered.choosing :
    Delivered w.md5 b tarball p ((Meta3dr.choosing w (checked {} c)).card.files .p4) := by
  obtain ⟨-, -, -, -, -, hfiles⟩ := updating_frame h.canonical h.log
  exact h.pair.congr hfiles

theorem Offered.request : request w (checked {} c) = .update := by
  obtain ⟨hclean, hfiles⟩ := checked_clean (x := {}) h.log
  have hthere : (withLog w (checked {} c)).isThere UPDATE = true := by
    rw [← h.update, withLog, withLog, (log_alike w.logRam [] hfiles).isThere]
  simp [Meta3dr.request, hclean.mountable, hthere]

theorem Offered.installs_iff : installs w {} c = true ↔ p = .dated := by
  have hs : (Meta3dr.choosing w (checked {} c)).LogMounted := Machine.logMounted_log _ _ _
  rw [installs, h.request, verdict_delivered hs h.named h.choosing h.digest]
  simp [h.canonical.latest, h.unforced]

/-- The archive that `tar` reads is the tarball. -/
theorem Offered.archive : archive w (updating c) (wordOf (b.pairName p)) = members := by
  obtain ⟨hcan, -, -, -, -, hfiles⟩ := updating_frame h.canonical h.log
  have hs := filling_eq (w := w) (latest_isSome hcan)
  have hlog : (filling w {} (emptied (updating c))).LogMounted := by
    rw [hs]
    exact Machine.logMounted_latest _ _ _
  have hholds : (emptied (updating c)).holds .p4 = (updating c).holds .p4 :=
    Card.holds_write_of_ne _ _ (by decide)
  have hemptied : (emptied (updating c)).files .p4 = (updating c).files .p4 := by
    rw [Card.files, hholds, Card.files]
  have hpair : Delivered w.md5 b tarball p
      ((filling w {} (emptied (updating c))).card.files .p4) := by
    rw [filling, hemptied]
    exact h.pair.congr hfiles
  have hfile := hpair.file
  rw [Build.content_tarball] at hfile
  rw [Meta3dr.archive, words_tarball hlog h.named hpair, Machine.members,
    pathOf_wordOf length_pairName (pairName_blankless h.named), read_updates hlog hfile]
  simp [h.members]

/-- **A published pair is installed exactly when it is the dated one.** LATEST has room for the files:
the build has copied the same files into GOLDEN before, which is smaller. -/
theorem installsFiles_iff : InstallsFiles w members c ↔ p = .dated := by
  have hinst := h.installs_iff
  rw [InstallsFiles, hinst, and_iff_left_iff_imp]
  intro hp
  obtain ⟨hcan, -⟩ := updating_frame h.canonical h.log
  have hs : (Meta3dr.choosing w (checked {} c)).LogMounted := Machine.logMounted_log _ _ _
  have hv : Meta3dr.verdict w (Meta3dr.choosing w (checked {} c)) = .accepted := by
    rw [verdict_delivered hs h.named h.choosing h.digest, if_pos hp]
  have hr := restarts_update (by simp [h.canonical.latest]) h.unforced h.request
  simp only [verdictPlan, hv] at hr
  rw [chosen_delivered hs h.named h.choosing, After_installPlan (latest_isSome hcan)] at hr
  -- what follows the installation does not touch LATEST
  obtain ⟨fs, hfs, -, -, hfiles⟩ :=
    installed_latest (w := w) (n := wordOf (b.pairName p)) hcan
  rw [h.archive] at hfiles
  refine ⟨_, fs, hr, ?_, hfiles⟩
  exact (After_holds (finishPlan_avoids _) (Card.entry_of_holds _ hfs)).2.trans hfs

end Offered

/-- A pair on the small card. -/
def samplePair (p : Pair) : Card :=
  Sample.card (Sample.withUpdate
    [(["updates", String.ofList ((sampleBuild []).pairName p)], .file "T".toList),
      (["updates", String.ofList (md5Name ((sampleBuild []).pairName p))],
        .file ((sampleBuild []).checksums Sample.world.md5 "T".toList))])

theorem samplePair_keys (p : Pair) : AList.keys ((samplePair p).files .p4) =
    [["updates", String.ofList (md5Name ((sampleBuild []).pairName p))],
      ["updates", String.ofList ((sampleBuild []).pairName p)], ["updates", "UPDATE"], ["updates"]] := by
  cases p <;> decide

theorem samplePair_entries {p : Pair} {q : Path} {n : String}
    (h : ((samplePair p).files .p4).get (["updates"] ++ q ++ [n]) ≠ none) :
    q = [] ∧ (n = String.ofList (md5Name ((sampleBuild []).pairName p)) ∨
      n = String.ofList ((sampleBuild []).pairName p) ∨ n = "UPDATE") := by
  have hmem : ["updates"] ++ q ++ [n] ∈ AList.keys ((samplePair p).files .p4) := by
    rw [Files.get_of_ne_nil _ (by simp), Option.ne_none_iff_isSome, AList.lookup_isSome] at h
    exact h
  rw [samplePair_keys] at hmem
  have hone : ∀ a : String, q ++ [n] = [a] → q = [] ∧ n = a := fun a ha => by
    simpa [List.append_eq_singleton_iff] using ha
  simp only [List.cons_append, List.nil_append, List.mem_cons, List.cons.injEq, true_and,
    List.append_eq_nil_iff, List.cons_ne_self, and_false, List.not_mem_nil, or_false] at hmem
  rcases hmem with hmem | hmem | hmem
  · exact ⟨(hone _ hmem).1, Or.inl (hone _ hmem).2⟩
  · exact ⟨(hone _ hmem).1, Or.inr (Or.inl (hone _ hmem).2)⟩
  · exact ⟨(hone _ hmem).1, Or.inr (Or.inr (hone _ hmem).2)⟩

theorem samplePair_offered (p : Pair) : Offered Sample.world (sampleBuild []) "T".toList
    [(["zImage"], "kernel".toList), (["u-boot.imx"], "T".toList)] p (samplePair p) where
  canonical := Sample.card_canonical _
  log := by cases p <;> decide
  unforced := by cases p <;> decide
  update := by cases p <;> decide
  pair :=
    { file := by cases p <;> decide
      list := by cases p <;> decide
      only := fun q n hn hsuf => by
        obtain ⟨hq, rfl | hn | rfl⟩ := samplePair_entries hn
        · exact absurd hsuf (by cases p <;> decide)
        · exact ⟨hq, hn⟩
        · exact absurd hsuf (by decide)
      onlyList := fun hmagic => absurd hmagic (by cases p <;> decide) }
  members := rfl
  named := List.all_iff_forall_prop.mp (by decide)
  digest := List.all_iff_forall_prop.mp (by decide)

theorem installsFiles_iff_dated :
    InstallsFiles Sample.world [(["zImage"], "kernel".toList), (["u-boot.imx"], "T".toList)]
      (samplePair .dated) ↔ Pair.dated = .dated := installsFiles_iff (samplePair_offered .dated)

/-- The undated pair of a build is rejected. -/
theorem not_installsFiles : ¬ ∀ (w : World) (b : Build) (tarball : Text)
    (members : List (Path × Text)) (p : Pair) (c : Card),
      Offered w b tarball members p c → InstallsFiles w members c := fun hall => by
  have h := samplePair_offered .undated
  cases h.installs_iff.mp (hall _ _ _ _ _ _ h).1

end Meta3dr.Image
