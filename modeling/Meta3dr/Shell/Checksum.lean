import Meta3dr.Shell.Words

/-!
# Checksum lists

A checksum list has one line per file, the digest and the name separated by two blanks. Checking
a list looks every name up and prints whether the recorded digest is the file's.

## Main definitions

* `parseChecksum line`: the digest and the name recorded in a line
* `checksumLine d name`: the line recorded for a file
* `checkLines digestOf list`: the lines a check of the list prints

## Main results

* `parseChecksum_checksumLine`: a recorded line reads back
* `mem_checkLines_iff`: the lines of a check are the verdicts on the recorded entries
-/

namespace Shell

/-- A text before and after the first occurrence of a separator. -/
def breakOn (sep : Text) : Text → Option (Text × Text)
  | [] => none
  | c :: cs =>
    if sep.isPrefixOf (c :: cs) then some ([], (c :: cs).drop sep.length)
    else (breakOn sep cs).map fun x => (c :: x.1, x.2)

/-- The digest and the name a line records, if it has the form of a record. -/
def parseChecksum (line : Text) : Option (Text × Text) :=
  (breakOn "  ".toList line).or (breakOn " *".toList line)

/-- The line recorded for a file. -/
def checksumLine (digest name : Text) : Text := digest ++ "  ".toList ++ name

/-- The line a check prints for a record. -/
def verdict (digestOf : Text → Option Text) (record : Text × Text) : Text :=
  record.2 ++ if digestOf record.2 = some record.1 then ": OK".toList else ": FAILED".toList

/-- The records of a list, in order. -/
def records (list : Text) : List (Text × Text) := (lines list).filterMap parseChecksum

/-- The lines a check of a list prints, one for each record. -/
def checkLines (digestOf : Text → Option Text) (list : Text) : List Text :=
  (records list).map (verdict digestOf)

theorem mem_checkLines_iff {digestOf : Text → Option Text} {list line : Text} :
    line ∈ checkLines digestOf list ↔ ∃ r ∈ records list, verdict digestOf r = line :=
  List.mem_map

/-- A separator does not occur where its first character does not. -/
theorem breakOn_append {a : Char} {sep : Text} {pre : Text} (h : a ∉ pre) (post : Text) :
    breakOn (a :: sep) (pre ++ a :: sep ++ post) = some (pre, post) := by
  induction pre with
  | nil => simp [breakOn]
  | cons c pre ih =>
    simp only [List.mem_cons, not_or] at h
    have hc : ¬ (a == c) = true := by simpa using h.1
    simp only [List.cons_append, breakOn, List.isPrefixOf, hc, Bool.false_and, Bool.false_eq_true,
      if_false]
    rw [ih h.2]
    rfl

/-- A recorded line reads back when its digest has no blank. -/
theorem parseChecksum_checksumLine {digest : Text} (h : ' ' ∉ digest) (name : Text) :
    parseChecksum (checksumLine digest name) = some (digest, name) := by
  have hb : breakOn "  ".toList (digest ++ "  ".toList ++ name) = some (digest, name) :=
    @breakOn_append ' ' [' '] digest h name
  rw [parseChecksum, checksumLine, hb]
  rfl

end Shell
