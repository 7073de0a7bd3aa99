import Mathlib

/-!
# The words of a shell

An unquoted expansion is split into fields at blanks, and each field that carries pattern
characters is replaced by the names that match it. The `[` command reads the resulting words as
an expression; where POSIX leaves the meaning of an expression open, a parameter decides.

## Main definitions

* `Text`: a string of bytes, written as characters
* `fields t`, `lines t`: the fields and the lines of a text
* `parsePattern t`, `matchTokens ts n`: shell patterns
* `bracket isThere odd args`: the `[` command on its operands
* `sortLines`: the lines in bytewise order

## Main results

* `fields_of_blankless`, `fields_unlines`: the fields of texts without blanks
* `getLast?_sortLines`: the last of the sorted lines is the greatest
* `matches_suffix`: a name that matches a pattern ends with the pattern's literal end
-/

namespace Shell

/-- A string of bytes. File contents, file names and words are all texts. -/
abbrev Text := List Char

/-! ## Fields and lines -/

/-- The characters at which a shell splits fields. -/
def isBlank (c : Char) : Bool := c == ' ' || c == '\t' || c == '\n'

/-- The fields of an unquoted expansion. -/
def fields (t : Text) : List Text := (t.splitOnP isBlank).filter fun w => !w.isEmpty

/-- The lines of a text; an unfinished last line counts when it is not empty. -/
def lines (t : Text) : List Text :=
  let ls := t.splitOn '\n'
  if ls.getLast? = some [] then ls.dropLast else ls

/-- The text of a list of lines. -/
def unlines (ls : List Text) : Text := ls.flatMap fun l => l ++ ['\n']

/-- The second field of a line, or nothing: what `awk '{print $2}'` prints for it. -/
def secondField (line : Text) : Text := (fields line)[1]?.getD []

theorem fields_nil : fields [] = [] := rfl

/-- A text without blanks is a single field. -/
theorem fields_of_blankless {t : Text} (hne : t ≠ []) (h : ∀ c ∈ t, isBlank c = false) :
    fields t = [t] := by
  have hs : t.splitOnP isBlank = [t] := List.splitOnP_eq_singleton h
  simp [fields, hs, hne]

/-- The second of two words. -/
theorem secondField_append {t u : Text} (ht : t ≠ []) (hu : u ≠ [])
    (hbt : ∀ c ∈ t, isBlank c = false) (hbu : ∀ c ∈ u, isBlank c = false) :
    secondField (t ++ ' ' :: u) = u := by
  have hsplit : (t ++ ' ' :: u).splitOnP isBlank = [t, u] := by
    rw [List.splitOnP_append_cons_of_forall_mem hbt _ (by decide), List.splitOnP_eq_singleton hbu]
  simp [secondField, fields, hsplit, ht, hu]

theorem unlines_cons (l : Text) (ls : List Text) : unlines (l :: ls) = l ++ '\n' :: unlines ls := by
  simp [unlines]

/-- Lines without newlines read back from their text. -/
theorem lines_unlines {ls : List Text} (h : ∀ l ∈ ls, '\n' ∉ l) : lines (unlines ls) = ls := by
  have hsplit : (unlines ls).splitOn '\n' = ls ++ [[]] := by
    induction ls with
    | nil => rfl
    | cons l ls ih =>
      have hl : ∀ c ∈ l, (c == '\n') = false := fun c hc => by
        have hne : c ≠ '\n' := fun he => h l List.mem_cons_self (he ▸ hc)
        simpa using hne
      rw [unlines_cons, List.splitOn, List.splitOnP_append_cons_of_forall_mem hl _ (by simp)]
      exact congrArg (l :: ·) (ih fun m hm => h m (List.mem_cons_of_mem _ hm))
  simp [lines, hsplit]

/-- Lines without blanks are the fields of their text. -/
theorem fields_unlines {ls : List Text} (hne : ∀ l ∈ ls, l ≠ [])
    (h : ∀ l ∈ ls, ∀ c ∈ l, isBlank c = false) : fields (unlines ls) = ls := by
  have hsplit : (unlines ls).splitOnP isBlank = ls ++ [[]] := by
    clear hne
    induction ls with
    | nil => rfl
    | cons l ls ih =>
      rw [unlines_cons, List.splitOnP_append_cons_of_forall_mem (h l List.mem_cons_self) _ (by decide)]
      exact congrArg (l :: ·) (ih fun m hm => h m (List.mem_cons_of_mem _ hm))
  rw [fields, hsplit, List.filter_append, List.filter_eq_self.mpr]
  · simp
  · intro l hl
    simpa using hne l hl

/-- Texts are ordered by their first different byte. -/
theorem cons_le_cons_iff {a b : Char} {t u : Text} : a :: t ≤ b :: u ↔ a < b ∨ a = b ∧ t ≤ u := by
  rw [← not_lt, ← not_lt, List.cons_lt_cons_iff]
  constructor
  · intro h
    push Not at h
    rcases lt_trichotomy a b with hab | hab | hab
    · exact Or.inl hab
    · exact Or.inr ⟨hab, not_lt.mpr (h.2 hab.symm)⟩
    · exact absurd hab (not_lt.mpr h.1)
  · rintro (hab | ⟨rfl, hle⟩) (hba | ⟨he, hlt⟩)
    · exact lt_asymm hab hba
    · exact absurd (he ▸ hab) (lt_irrefl _)
    · exact absurd hba (lt_irrefl _)
    · exact hle hlt

theorem append_le_append_left (t : Text) {u v : Text} (h : u ≤ v) : t ++ u ≤ t ++ v := by
  induction t with
  | nil => exact h
  | cons c t ih => exact cons_le_cons_iff.mpr (Or.inr ⟨rfl, ih⟩)

/-- The lines in bytewise order. -/
def sortLines (ls : List Text) : List Text := ls.insertionSort (· ≤ ·)

theorem mem_sortLines {l : Text} {ls : List Text} : l ∈ sortLines ls ↔ l ∈ ls :=
  List.mem_insertionSort _

@[simp] theorem sortLines_singleton (l : Text) : sortLines [l] = [l] := rfl

/-- The last of the sorted lines is the greatest one. -/
theorem getLast?_sortLines {ls : List Text} {l : Text} (hl : l ∈ ls) (hmax : ∀ m ∈ ls, m ≤ l) :
    (sortLines ls).getLast? = some l := by
  have hsorted : (sortLines ls).Pairwise (· ≤ ·) := List.pairwise_insertionSort _ _
  have hmem : l ∈ sortLines ls := mem_sortLines.mpr hl
  rcases List.eq_nil_or_concat' (sortLines ls) with hnil | ⟨as, m, heq⟩
  · rw [hnil] at hmem
    cases hmem
  · have hm : m ≤ l := hmax m (mem_sortLines.mp (heq ▸ by simp))
    rw [heq] at hsorted hmem ⊢
    rw [List.getLast?_append_of_ne_nil _ (by simp), List.getLast?_singleton]
    rcases List.mem_append.mp hmem with has | hlast
    · have hlm := (List.pairwise_append.mp hsorted).2.2 l has m (by simp)
      rw [le_antisymm hm hlm]
    · rw [List.mem_singleton.mp hlast]

/-! ## Case -/

/-- A name without the case of its letters, which some file systems ignore. -/
def foldCase (t : Text) : Text := t.map Char.toLower

theorem foldCase_append (t u : Text) : foldCase (t ++ u) = foldCase t ++ foldCase u :=
  List.map_append

/-- Names with different last characters are different. -/
theorem foldCase_ne_of_getLast? {t u : Text}
    (h : t.getLast?.map Char.toLower ≠ u.getLast?.map Char.toLower) : foldCase t ≠ foldCase u :=
  fun he => h (by
    have hlast := congrArg List.getLast? he
    rwa [foldCase, foldCase, List.getLast?_map, List.getLast?_map] at hlast)

theorem dot_mem_foldCase {t : Text} : '.' ∈ foldCase t ↔ '.' ∈ t := by
  refine ⟨fun h => ?_, fun h => List.mem_map.mpr ⟨'.', h, rfl⟩⟩
  obtain ⟨c, hc, hdot⟩ := List.mem_map.mp h
  have hup : ¬ c.isUpper := fun hup => by
    have hlow : c.toLower.isAlpha = true := by
      rw [Char.isAlpha_toLower_eq_isAlpha, Char.isAlpha, hup, Bool.true_or]
    rw [hdot] at hlow
    exact absurd hlow (by decide)
  rw [Char.toLower_eq_of_not_isUpper hup] at hdot
  exact hdot ▸ hc

/-! ## Patterns -/

/-- A member of a bracket expression: a range of characters, or a class such as `[:upper:]`. -/
inductive Member
  | range (lo hi : Char)
  | cls (name : Text)
  deriving DecidableEq

/-- A unit of a shell pattern. -/
inductive Token
  | lit (c : Char)
  | any
  | star
  | oneOf (negated : Bool) (members : List Member)
  deriving DecidableEq

/-- A text up to the first `d]`, and what follows that. -/
def splitDelim (d : Char) : Text → Option (Text × Text)
  | c :: e :: cs =>
    if c = d ∧ e = ']' then some ([], cs)
    else (splitDelim d (e :: cs)).map fun x => (c :: x.1, x.2)
  | _ => none

/-- One character or class at the front of the inside of a bracket expression; `[=c=]` and `[.c.]`
are the character `c`. -/
def member : Text → Option (Member × Text)
  | [] => none
  | c :: cs =>
    match c, cs with
    | '\\', d :: ds => some (.range d d, ds)
    | '[', d :: ds =>
      if d = ':' ∨ d = '=' ∨ d = '.' then
        match splitDelim d ds with
        | some ([e], rest) => some (if d = ':' then .cls [e] else .range e e, rest)
        | some (name, rest) => some (.cls name, rest)
        | none => some (.range c c, cs)
      else some (.range c c, cs)
    | _, _ => some (.range c c, cs)

/-- A member that goes on as a range; a minus sign in last place stands for itself. -/
def memberRange : Member × Text → Member × Text
  | (.range lo hi, '-' :: c :: cs) =>
    if c = ']' then (.range lo hi, '-' :: c :: cs)
    else match member (c :: cs) with
      | some (.range _ hi', rest) => (.range lo hi', rest)
      | _ => (.range lo hi, '-' :: c :: cs)
  | x => x

/-- The members of a bracket expression and what follows its closing bracket, when it closes. A
closing bracket in first place is a member. The fuel is at least the length of the text. -/
def closeMembers : ℕ → Text → Option (List Member × Text)
  | 0, _ => none
  | n + 1, t =>
    match (member t).map memberRange with
    | none => none
    | some (m, ']' :: rest) => some ([m], rest)
    | some (m, rest) => (closeMembers n rest).map fun x => (m :: x.1, x.2)

/-- The token of a bracket expression, and what follows its closing bracket. The first place is the
one after the sign. -/
def closeBracket : Text → Option (Token × Text)
  | [] => none
  | c :: cs =>
    if c = '!' ∨ c = '^' then
      (closeMembers cs.length cs).map fun x => (.oneOf true x.1, x.2)
    else (closeMembers (c :: cs).length (c :: cs)).map fun x => (.oneOf false x.1, x.2)

/-- The tokens of a pattern, read with fuel at least its length. -/
def parseTokens : ℕ → Text → List Token
  | 0, _ => []
  | _ + 1, [] => []
  | n + 1, c :: cs =>
    if c = '*' then .star :: parseTokens n cs
    else if c = '?' then .any :: parseTokens n cs
    else if c = '\\' then
      match cs with
      | [] => [.lit c]
      | d :: ds => .lit d :: parseTokens n ds
    else if c = '[' then
      match closeBracket cs with
      | some (t, rest) => t :: parseTokens n rest
      | none => .lit c :: parseTokens n cs
    else .lit c :: parseTokens n cs

/-- The tokens of a pattern. -/
def parsePattern (t : Text) : List Token := parseTokens t.length t

/-- A character is a member of a bracket expression; a class that is unknown has none. -/
def Member.accepts : Member → Char → Bool
  | .range lo hi, c => decide (lo ≤ c) && decide (c ≤ hi)
  | .cls name, c => match String.ofList name with
    | "alpha" => c.isAlpha
    | "digit" => c.isDigit
    | "alnum" => c.isAlphanum
    | "upper" => c.isUpper
    | "lower" => c.isLower
    | "space" => c == ' ' || ('\t' ≤ c && c ≤ '\r')
    | "blank" => c == ' ' || c == '\t'
    | "xdigit" => c.isDigit || ('a' ≤ c && c ≤ 'f') || ('A' ≤ c && c ≤ 'F')
    | "cntrl" => c < ' ' || c == '\x7f'
    | "print" => ' ' ≤ c && c < '\x7f'
    | "graph" => ' ' < c && c < '\x7f'
    | "punct" => ' ' < c && c < '\x7f' && !c.isAlphanum
    | _ => false

/-- A single character matches a token. -/
def Token.accepts : Token → Char → Bool
  | .lit c, d => c == d
  | .any, _ => true
  | .star, _ => false
  | .oneOf neg ms, d => neg != ms.any fun m => m.accepts d

/-- A name matches a pattern. -/
def matchTokens : List Token → Text → Bool
  | [], n => n.isEmpty
  | .star :: ts, n => n.tails.any (matchTokens ts)
  | t :: ts, c :: n => t.accepts c && matchTokens ts n
  | _ :: _, [] => false

/-- The text carries pattern characters. -/
def hasMagic (t : Text) : Bool := t.any fun c => c == '*' || c == '?' || c == '['

theorem eq_of_matchTokens_lit {suf n : Text} (h : matchTokens (suf.map .lit) n) : n = suf := by
  induction suf generalizing n with
  | nil => simpa [matchTokens] using h
  | cons c suf ih =>
    rcases n with _ | ⟨d, n⟩
    · simp [matchTokens] at h
    · simp only [List.map_cons, matchTokens, Token.accepts, Bool.and_eq_true, beq_iff_eq] at h
      rw [← h.1, ih h.2]

/-- A name that matches tokens ending in literals ends with these literals. -/
theorem matchTokens_suffix (ts : List Token) (suf : Text) {n : Text}
    (h : matchTokens (ts ++ suf.map .lit) n) : suf <:+ n := by
  induction ts generalizing n with
  | nil => exact eq_of_matchTokens_lit h ▸ List.suffix_refl _
  | cons t ts ih =>
    by_cases ht : t = .star
    · subst ht
      simp only [List.cons_append, matchTokens, List.any_eq_true] at h
      obtain ⟨m, hm, hmatch⟩ := h
      exact (ih hmatch).trans ((List.mem_tails _ _).mp hm)
    · rcases n with _ | ⟨c, n⟩
      · cases t <;> simp_all [matchTokens]
      · have hrest : matchTokens (ts ++ suf.map .lit) n := by
          cases t <;> simp_all [matchTokens]
        exact (ih hrest).trans (List.suffix_cons c n)

/-- A character without a meaning in patterns. -/
def IsPlain (c : Char) : Prop := c ∉ ['*', '?', '\\', '[', ']']

instance (c : Char) : Decidable (IsPlain c) := inferInstanceAs (Decidable (¬ _))

theorem splitDelim_suffix {d : Char} {t name rest : Text} (h : splitDelim d t = some (name, rest)) :
    rest <:+ t := by
  induction t generalizing name with
  | nil => cases h
  | cons c t ih =>
    rcases t with _ | ⟨e, cs⟩
    · cases h
    · rw [splitDelim] at h
      split_ifs at h
      · cases h
        exact (List.suffix_cons e rest).trans (List.suffix_cons c _)
      · obtain ⟨⟨n, r⟩, hr, he⟩ := Option.map_eq_some_iff.mp h
        obtain ⟨-, rfl⟩ := Prod.mk.inj he
        exact (ih hr).trans (List.suffix_cons c _)

theorem member_suffix {t rest : Text} {m : Member} (h : member t = some (m, rest)) :
    rest <:+ t := by
  unfold member at h
  split at h
  · cases h
  · split at h
    · cases h
      exact (List.suffix_cons _ _).trans (List.suffix_cons _ _)
    · split at h
      · split at h
        next hd =>
          cases h
          exact ((splitDelim_suffix hd).trans (List.suffix_cons _ _)).trans (List.suffix_cons _ _)
        next hd =>
          cases h
          exact ((splitDelim_suffix hd).trans (List.suffix_cons _ _)).trans (List.suffix_cons _ _)
        next =>
          cases h
          exact List.suffix_cons _ _
      · cases h
        exact List.suffix_cons _ _
    · cases h
      exact List.suffix_cons _ _

theorem memberRange_suffix (x : Member × Text) : (memberRange x).2 <:+ x.2 := by
  unfold memberRange
  split
  · split_ifs
    · exact List.suffix_refl _
    · split
      next hm => exact (member_suffix hm).trans (List.suffix_cons _ _)
      next => exact List.suffix_refl _
  · exact List.suffix_refl _

/-- A bracket expression ends with a closing bracket. -/
theorem closeMembers_suffix {n : ℕ} {t rest : Text} {ms : List Member}
    (h : closeMembers n t = some (ms, rest)) : ']' :: rest <:+ t := by
  induction n generalizing t ms with
  | zero => cases h
  | succ n ih =>
    rw [closeMembers] at h
    have hfront : ∀ {y : Member × Text}, (member t).map memberRange = some y → y.2 <:+ t := by
      intro y hy
      obtain ⟨x, hx, rfl⟩ := Option.map_eq_some_iff.mp hy
      exact (memberRange_suffix x).trans (member_suffix hx)
    split at h
    next => cases h
    next hm =>
      cases h
      exact hfront hm
    next hm =>
      obtain ⟨⟨ms', r⟩, hr, he⟩ := Option.map_eq_some_iff.mp h
      obtain ⟨-, rfl⟩ := Prod.mk.inj he
      exact (ih hr).trans (hfront hm)

theorem closeBracket_suffix {t rest : Text} {tok : Token}
    (h : closeBracket t = some (tok, rest)) : ']' :: rest <:+ t := by
  rcases t with _ | ⟨c, cs⟩
  · cases h
  · rw [closeBracket] at h
    split_ifs at h
    all_goals
      obtain ⟨⟨ms, r⟩, hr, he⟩ := Option.map_eq_some_iff.mp h
      obtain ⟨-, rfl⟩ := Prod.mk.inj he
    · exact (closeMembers_suffix hr).trans (List.suffix_cons c cs)
    · exact closeMembers_suffix hr

/-- A bracket expression in front of a text without closing brackets closes before it. -/
theorem closeBracket_append {suf : Text} (hsuf : ']' ∉ suf) (p : Text) {rest : Text} {tok : Token}
    (h : closeBracket (p ++ suf) = some (tok, rest)) :
    ∃ p', rest = p' ++ suf ∧ p'.length ≤ p.length := by
  obtain ⟨used, hused⟩ := closeBracket_suffix h
  rcases List.append_eq_append_iff.mp hused with ⟨q, rfl, hq⟩ | ⟨q, rfl, hq⟩
  · -- the closing bracket is in front of the text
    rcases q with _ | ⟨c, q⟩
    · rw [List.nil_append] at hq
      exact absurd (hq ▸ List.mem_cons_self) hsuf
    · obtain ⟨rfl, rfl⟩ := List.cons.inj hq
      exact ⟨q, rfl, by simp; omega⟩
  · exact absurd (hq ▸ List.mem_append_right _ List.mem_cons_self) hsuf

example : closeBracket "!]x]E".toList =
    some (.oneOf true [.range ']' ']', .range 'x' 'x'], "E".toList) := by decide

/-- A plain text is read as literals. -/
theorem parseTokens_of_plain {t : Text} (ht : ∀ c ∈ t, IsPlain c) (n : ℕ) (hn : t.length ≤ n) :
    parseTokens n t = t.map .lit := by
  induction t generalizing n with
  | nil => cases n <;> rfl
  | cons c t ih =>
    obtain ⟨n, rfl⟩ : ∃ m, n = m + 1 := ⟨n - 1, by simp at hn; omega⟩
    have hc := ht c List.mem_cons_self
    simp only [IsPlain, List.mem_cons, List.not_mem_nil, or_false, not_or] at hc
    have hrest := ih (fun d hd => ht d (List.mem_cons_of_mem _ hd)) n (by simpa using hn)
    simp [parseTokens, hc, hrest]

/-- A plain end of a pattern is read as literals. -/
theorem parseTokens_suffix {suf : Text} (hsuf : ∀ c ∈ suf, IsPlain c) (n : ℕ) (p : Text)
    (hn : (p ++ suf).length ≤ n) : ∃ ts, parseTokens n (p ++ suf) = ts ++ suf.map .lit := by
  have hclose : ']' ∉ suf := fun hm => by simpa [IsPlain] using hsuf _ hm
  induction n generalizing p with
  | zero =>
    have hnil : p ++ suf = [] := List.length_eq_zero_iff.mp (Nat.le_zero.mp hn)
    obtain ⟨rfl, rfl⟩ := List.append_eq_nil_iff.mp hnil
    exact ⟨[], rfl⟩
  | succ n ih =>
    rcases p with _ | ⟨c, p⟩
    · exact ⟨[], parseTokens_of_plain hsuf _ (by simpa using hn)⟩
    · have hlen : (p ++ suf).length ≤ n := by simpa using hn
      -- a token in front of the tokens of a remainder that still has the plain end
      have push : ∀ (t : Token) (q : Text), (q ++ suf).length ≤ n →
          ∃ ts, t :: parseTokens n (q ++ suf) = ts ++ suf.map .lit := fun t q hq => by
        obtain ⟨ts, hts⟩ := ih q hq
        exact ⟨t :: ts, by rw [hts]; rfl⟩
      simp only [List.cons_append, parseTokens]
      split_ifs with h₁ h₂ h₃ h₄
      · exact push _ p hlen
      · exact push _ p hlen
      · rcases p with _ | ⟨d, p⟩
        · rcases suf with _ | ⟨d, suf⟩
          · exact ⟨[.lit c], rfl⟩
          · -- an escape in front of the plain end reads its first character literally
            refine ⟨[], ?_⟩
            have hd : ∀ x ∈ suf, IsPlain x := fun x hx => hsuf x (List.mem_cons_of_mem _ hx)
            simp only [List.nil_append, List.map_cons]
            rw [parseTokens_of_plain hd n (by simp at hn; omega)]
        · exact push _ p (by simp at hlen ⊢; omega)
      · cases hb : closeBracket (p ++ suf) with
        | none => exact push _ p hlen
        | some x =>
          obtain ⟨p', hp', hle⟩ := closeBracket_append hclose p hb
          simp only [hp']
          exact push _ p' (by simp at hlen ⊢; omega)
      · exact push _ p hlen

/-- A name that matches a pattern with a plain end has the same end. -/
theorem matches_suffix {suf p n : Text} (hsuf : ∀ c ∈ suf, IsPlain c)
    (h : matchTokens (parsePattern (p ++ suf)) n) : suf <:+ n := by
  obtain ⟨ts, hts⟩ := parseTokens_suffix hsuf _ p le_rfl
  exact matchTokens_suffix ts suf (by rwa [parsePattern, hts] at h)

/-! ## The `[` command -/

/-- The `[` command on its operands, the closing bracket left out. `isThere` decides `-e`, and
`odd` the expressions that POSIX leaves open. Two operands that are no unary test are a syntax
error, which counts as false. -/
def bracket (isThere : Text → Bool) (odd : List Text → Bool) : List Text → Bool
  | [] => false
  | [x] => !x.isEmpty
  | [op, x] =>
    if op = "!".toList ∨ op = "-z".toList then x.isEmpty
    else if op = "-n".toList then !x.isEmpty
    else if op = "-e".toList then isThere x
    else false
  | [x, op, y] =>
    if op = "=".toList ∨ op = "==".toList then x == y
    else if op = "!=".toList then x != y
    else if x = "!".toList ∧ op = "-e".toList then !isThere y
    else odd [x, op, y]
  | args => odd args

end Shell
