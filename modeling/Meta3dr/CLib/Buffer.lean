import Mathlib

/-!
# Buffers of the C library

A buffer is a row of bytes, each of which has been written or not. Reading a line stores at most
one byte less than the given size and a zero byte behind it, and a comparison that comes to a byte
that was never written has no result.

## Main definitions

* `Buffer`, `Buffer.store`: buffers, and bytes stored at the start of one
* `fgets`: the buffer after a line is read into it
* `strncmp`: whether two strings agree in their first bytes

## Main results

* `strncmp_text`: a stored string against a text without zero bytes
* `prefix_line`: the texts a line begins with
-/

namespace CLib

/-- A row of bytes; a byte that was never written has no value. -/
abbrev Buffer := List (Option UInt8)

/-- A buffer of this size, as it is on the stack. -/
def Buffer.fresh (size : ℕ) : Buffer := List.replicate size none

/-- A buffer of this size filled by `memset` with zero bytes. -/
def Buffer.zeroed (size : ℕ) : Buffer := List.replicate size (some 0)

/-- Store bytes at the start of a buffer. -/
def Buffer.store (b : Buffer) (bytes : List UInt8) : Buffer :=
  bytes.map some ++ b.drop bytes.length

/-- The newline. -/
abbrev newline : UInt8 := 10

/-- The first line of a stream, with its newline if it has one. -/
def line : List UInt8 → List UInt8
  | [] => []
  | c :: cs => if c = newline then [c] else c :: line cs

/-- The first line of a stream without its newline. -/
def lineText (stream : List UInt8) : List UInt8 := stream.takeWhile (· ≠ newline)

/-- `fgets(buf, size, fd)`: the buffer it leaves, or nothing at the end of the stream. -/
def fgets (b : Buffer) (size : ℕ) (stream : List UInt8) : Option Buffer :=
  match (line stream).take (size - 1) with
  | [] => none
  | c :: cs => some (b.store (c :: cs ++ [0]))

/-- `strncmp(s, t, n) == 0`; nothing when a byte is read that was never written. -/
def strncmp : Buffer → Buffer → ℕ → Option Bool
  | _, _, 0 => some true
  | some a :: s, some b :: t, n + 1 =>
    if a ≠ b then some false else if a = 0 then some true else strncmp s t n
  | _, _, _ + 1 => none

/-- A stored string agrees with a text without zero bytes when it begins with this text. -/
theorem strncmp_text {t : List UInt8} (ht : 0 ∉ t) (s : List UInt8) (r r' : Buffer) :
    strncmp (s.map some ++ some 0 :: r) (t.map some ++ r') t.length =
      some (decide (t <+: s)) := by
  induction t generalizing s with
  | nil => simp [strncmp]
  | cons c t ih =>
    simp only [List.mem_cons, not_or] at ht
    rcases s with _ | ⟨d, s⟩
    · simp [strncmp, ht.1]
    · by_cases hdc : d = c
      · subst hdc
        simp [strncmp, Ne.symm ht.1, ih ht.2]
      · simp [strncmp, hdc, List.cons_prefix_cons, Ne.symm hdc]

/-- A text without newlines begins a line when it begins the line's text. -/
theorem prefix_line {t : List UInt8} (ht : newline ∉ t) (stream : List UInt8) :
    t <+: line stream ↔ t <+: lineText stream := by
  induction stream generalizing t with
  | nil => simp [line, lineText]
  | cons c cs ih =>
    by_cases hc : c = newline
    · rcases t with _ | ⟨d, t⟩
      · simp
      · simp only [List.mem_cons, not_or] at ht
        simp [line, lineText, hc, List.cons_prefix_cons, Ne.symm ht.1]
    · rcases t with _ | ⟨d, t⟩
      · simp
      · simp only [List.mem_cons, not_or] at ht
        have hrest := ih ht.2
        simp only [lineText] at hrest
        simp [line, lineText, hc, List.cons_prefix_cons, hrest]

theorem prefix_drop_line {t : List UInt8} (ht : newline ∉ t) (stream : List UInt8) :
    t <+: (line stream).drop 1 ↔ t <+: (lineText stream).drop 1 := by
  rcases stream with _ | ⟨c, cs⟩
  · simp [line, lineText]
  · by_cases hc : c = newline
    · simp [line, lineText, hc]
    · simpa [line, lineText, hc] using prefix_line ht cs

end CLib
