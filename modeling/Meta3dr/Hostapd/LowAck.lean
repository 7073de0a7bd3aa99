import Meta3dr.CLib.Buffer

/-!
# Stations with low acknowledgement

`hostapd` disconnects an associated station that acknowledges too few frames. The patched
`hostapd_event_sta_low_ack` spares the station whose address is recorded in
`/log/3dr-pairing.conf`, in the form `[88:dc:96:33:f0:67]`.

## Main definitions

* `Addr`, `macStr a`: station addresses, and their text
* `hostapdEventStaLowAck`: the patched function
* `names content a`: the first line of a file names an address

## Main results

* `hostapdEventStaLowAck_spec`: which station a pairing file spares
-/

namespace Meta3dr.Hostapd

open CLib

/-- The address of a station. -/
abbrev Addr := Fin 6 → UInt8

/-- The digit that `%x` prints. -/
def hexDigit (n : ℕ) : UInt8 := if n < 10 then .ofNat (48 + n) else .ofNat (87 + n)

/-- A byte as `%02x` prints it. -/
def hexByte (b : UInt8) : List UInt8 := [hexDigit (b.toNat / 16), hexDigit (b.toNat % 16)]

/-- The colon. -/
abbrev colon : UInt8 := 58

/-- An address as `MACSTR` prints it. -/
def macStr (a : Addr) : List UInt8 := [colon].intercalate ((List.ofFn a).map hexByte)

/-- What becomes of the station: the event is ignored, or the station is spared as the paired one,
or the function goes on to disconnect it. -/
inductive Outcome
  | ignored | spared | disconnected
  deriving DecidableEq

/-- `hostapd_event_sta_low_ack` on a station that is known or not, with `disassoc_low_ack` set or not
and the content of the pairing file, if it opens. There is no outcome when a byte is compared that
was never written. -/
def hostapdEventStaLowAck (sta disassocLowAck : Bool) (pairing : Option (List UInt8)) (addr : Addr) :
    Option Outcome :=
  if !sta || !disassocLowAck then some .ignored
  else match pairing with
    | none => some .disconnected
    | some content =>
      let buf := Buffer.fresh 20
      match fgets buf (buf.length - 1) content with
      | none => some .disconnected
      | some buf =>
        let addrStr := (Buffer.zeroed 20).store (macStr addr ++ [0])
        (strncmp (buf.drop 1) addrStr 17).map fun same => if same then .spared else .disconnected

/-! ## The text of an address -/

/-- The characters of hexadecimal digits. -/
def IsHex (b : UInt8) : Prop := 48 ≤ b ∧ b ≤ 57 ∨ 97 ≤ b ∧ b ≤ 102

instance (b : UInt8) : Decidable (IsHex b) := inferInstanceAs (Decidable (_ ∨ _))

theorem hexDigit_isHex : ∀ n < 16, IsHex (hexDigit n) := by decide

theorem hexDigit_injective : ∀ m < 16, ∀ n < 16, hexDigit m = hexDigit n → m = n := by decide

theorem hexByte_injective {a b : UInt8} (h : hexByte a = hexByte b) : a = b := by
  have ha := a.toNat_lt
  have hb := b.toNat_lt
  simp only [hexByte, List.cons.injEq, and_true] at h
  have hhigh := hexDigit_injective _ (by omega) _ (by omega) h.1
  have hlow := hexDigit_injective _ (by omega) _ (by omega) h.2
  exact UInt8.toNat_inj.mp (by omega)

theorem hexByte_isHex (a : UInt8) : ∀ b ∈ hexByte a, IsHex b := by
  have ha := a.toNat_lt
  simp only [hexByte, List.mem_cons, List.not_mem_nil, or_false, forall_eq_or_imp, forall_eq]
  exact ⟨hexDigit_isHex _ (by omega), hexDigit_isHex _ (by omega)⟩

/-- The bytes of an address text, written out. -/
theorem macStr_eq (a : Addr) : macStr a = hexByte (a 0) ++ colon :: hexByte (a 1) ++
    colon :: hexByte (a 2) ++ colon :: hexByte (a 3) ++ colon :: hexByte (a 4) ++
    colon :: hexByte (a 5) := rfl

@[simp] theorem macStr_length (a : Addr) : (macStr a).length = 17 := rfl

theorem macStr_bytes (a : Addr) : ∀ b ∈ macStr a, IsHex b ∨ b = colon := by
  simp only [macStr_eq, List.mem_append, List.mem_cons]
  have h := fun i => hexByte_isHex (a i)
  grind

theorem not_mem_macStr (a : Addr) {b : UInt8} (hb : ¬ IsHex b) (hc : b ≠ colon) : b ∉ macStr a :=
  fun h => (macStr_bytes a b h).elim hb hc

/-- Two addresses with the same text are equal. -/
theorem macStr_injective {a b : Addr} (h : macStr a = macStr b) : a = b := by
  simp only [macStr_eq, hexByte, List.cons_append, List.nil_append, List.cons.injEq] at h
  funext i
  refine hexByte_injective ?_
  fin_cases i <;> simp_all [hexByte]

/-! ## The paired station -/

/-- The stored first line, without its first byte, against the text of an address. -/
theorem strncmp_line (a : Addr) {c : UInt8} {cs content : List UInt8}
    (hline : (line content).take 18 = c :: cs) :
    strncmp (((Buffer.fresh 20).store (c :: cs ++ [0])).drop 1)
      ((Buffer.zeroed 20).store (macStr a ++ [0])) 17 =
        some (decide (macStr a <+: (lineText content).drop 1)) := by
  have hbuf : ((Buffer.fresh 20).store (c :: cs ++ [0])).drop 1 =
      cs.map some ++ some 0 :: (Buffer.fresh 20).drop (cs.length + 2) := by
    simp [Buffer.store]
  have haddr : (Buffer.zeroed 20).store (macStr a ++ [0]) = (macStr a).map some ++
      some 0 :: (Buffer.zeroed 20).drop 18 := by
    simp [Buffer.store]
  have htext := strncmp_text (t := macStr a) (not_mem_macStr a (by decide) (by decide)) cs
    ((Buffer.fresh 20).drop (cs.length + 2)) (some 0 :: (Buffer.zeroed 20).drop 18)
  have hcs : cs = ((line content).drop 1).take 17 := by
    have hdrop := congrArg (List.drop 1) hline
    rw [List.drop_take] at hdrop
    exact hdrop.symm
  have hpre : macStr a <+: cs ↔ macStr a <+: (lineText content).drop 1 := by
    rw [← prefix_drop_line (not_mem_macStr a (by decide) (by decide)), hcs]
    exact ⟨fun h => h.trans (List.take_prefix _ _), fun h => List.prefix_take_iff.mpr ⟨h, le_rfl⟩⟩
  rw [hbuf, haddr, macStr_length] at *
  rw [htext]
  simp only [hpre]

/-- The 17 bytes after the first byte of a file's first line are the text of an address. -/
def names (content : List UInt8) (a : Addr) : Prop := ((lineText content).drop 1).take 17 = macStr a

instance (content : List UInt8) (a : Addr) : Decidable (names content a) :=
  inferInstanceAs (Decidable (_ = _))

theorem names_iff_prefix {content : List UInt8} {a : Addr} :
    macStr a <+: (lineText content).drop 1 ↔ names content a := by
  rw [List.prefix_iff_eq_take, macStr_length, names, eq_comm]

/-- **The outcome depends on what the file names**, and every byte compared was written. -/
theorem outcome_eq (content : List UInt8) (a : Addr) :
    hostapdEventStaLowAck true true (some content) a =
      some (if names content a then .spared else .disconnected) := by
  have hsize : (Buffer.fresh 20).length - 1 = 19 := rfl
  simp only [hostapdEventStaLowAck, Bool.not_true, Bool.or_self, Bool.false_eq_true, if_false,
    hsize, fgets, Nat.add_one_sub_one]
  cases hline : (line content).take 18 with
  | nil =>
    have hnil : line content = [] := by simpa using hline
    have hnot : ¬ names content a := fun h => by
      rw [← names_iff_prefix, ← prefix_drop_line (not_mem_macStr a (by decide) (by decide)),
        hnil] at h
      simpa using h.length_le
    simp only [hnot, if_false]
  | cons c cs =>
    simp only [strncmp_line a hline, names_iff_prefix]
    by_cases h : names content a <;> simp [h]

theorem spared_iff (pairing : Option (List UInt8)) (a : Addr) :
    hostapdEventStaLowAck true true pairing a = some .spared ↔
      ∃ content, pairing = some content ∧ names content a := by
  cases pairing with
  | none => simp [hostapdEventStaLowAck]
  | some content =>
    rw [outcome_eq]
    by_cases h : names content a <;> simp [h]

/-- The file in the documented form, with anything after it. -/
def pairingFile (m : Addr) (rest : List UInt8) : List UInt8 := 91 :: macStr m ++ 93 :: rest

theorem names_pairingFile (m : Addr) (rest : List UInt8) : names (pairingFile m rest) m := by
  have hnl : ∀ b ∈ macStr m, decide (b ≠ newline) = true := fun b hb => by
    have hne : b ≠ newline := fun h => not_mem_macStr m (by decide) (by decide) (h ▸ hb)
    simp [hne]
  rw [names, lineText, pairingFile, List.cons_append, List.takeWhile_cons_of_pos (by decide),
    List.takeWhile_append_of_pos hnl, List.drop_one, List.tail_cons]
  exact List.take_left' (macStr_length m)

/-- **What the pairing file decides.** Only written bytes are compared; the station is spared exactly
when the 17 bytes after the first byte of the first line are its address; a file in the documented
form spares exactly the station it names; and no file spares two stations. -/
theorem hostapdEventStaLowAck_spec (a : Addr) :
    (∀ pairing, ∃ o, hostapdEventStaLowAck true true pairing a = some o) ∧
    (∀ pairing, hostapdEventStaLowAck true true pairing a = some .spared ↔
      ∃ content, pairing = some content ∧ ((lineText content).drop 1).take 17 = macStr a) ∧
    (∀ m rest, hostapdEventStaLowAck true true (some (pairingFile m rest)) a = some .spared ↔
      a = m) ∧
    (∀ pairing b, hostapdEventStaLowAck true true pairing a = some .spared →
      hostapdEventStaLowAck true true pairing b = some .spared → a = b) := by
  refine ⟨fun pairing => ?_, fun pairing => spared_iff pairing a, fun m rest => ?_,
    fun pairing b ha hb => ?_⟩
  · cases pairing with
    | none => exact ⟨_, rfl⟩
    | some content => exact ⟨_, outcome_eq content a⟩
  · rw [spared_iff]
    constructor
    · rintro ⟨content, hcontent, hnames⟩
      obtain rfl := Option.some.inj hcontent
      exact macStr_injective (hnames.symm.trans (names_pairingFile m rest))
    · rintro rfl
      exact ⟨_, rfl, names_pairingFile a rest⟩
  · obtain ⟨content, hcontent, hnames⟩ := (spared_iff pairing a).mp ha
    obtain ⟨content', hcontent', hnames'⟩ := (spared_iff pairing b).mp hb
    obtain rfl := Option.some.inj (hcontent.symm.trans hcontent')
    exact macStr_injective (hnames.symm.trans hnames')

end Meta3dr.Hostapd
