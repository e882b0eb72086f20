import Mathlib.Tactic.SplitIfs
import ReplicaRing.Json

/-!
# Texts read back as the values written

A value is written without blanks and read back from its text (`Json.parse_write`), whatever
stands in its strings, as long as its parts were made the way a writer makes them
(`Json.Plain`): numbers from natural numbers, strings and names from bytes of which quotes,
backslashes and control characters are escaped.

* Strings: `Json.rawFrom_escape` finds the closing quote, `Json.text?_ofText` the text.
* Numbers: `Json.number?_decimal` finds the end, `Json.nat?_ofNat` the number.
* Nested values: `Json.reads_back`, by induction on the fuel, which twice the length of a
  text always covers.
-/

namespace ReplicaRing.Json

/-! ## Strings -/

/-- The ways a byte is written between quotes: as it is, as a backslash and a letter, or as a
    backslash and four hexadecimal digits. -/
inductive Escaped (b : UInt8) : Bytes → Prop
  | plain (hb : b ≠ 0x5C) (hq : b ≠ 0x22) (hc : 0x20 ≤ b) : Escaped b [b]
  | short (c : UInt8) (hu : c ≠ 0x75) (hc : shortEscape? c = some b) : Escaped b [0x5C, c]
  | code (d e : UInt8) (hb : b < 0x20)
      (hde : ∀ rest, hex4? (0x30 :: 0x30 :: d :: e :: rest) = some (b.toNat, rest)) :
      Escaped b [0x5C, 0x75, 0x30, 0x30, d, e]

theorem hexValue?_hexDigit :
    ∀ n < 16, hexValue? (UInt8.ofNat (Bytes.hexDigit n).toNat) = some n := by
  decide

theorem code_control : ∀ n < 32,
    Bytes.ofString "\\u00" ++ Bytes.ofString (Bytes.hex [UInt8.ofNat n]) =
      [0x5C, 0x75, 0x30, 0x30, UInt8.ofNat (Bytes.hexDigit (n / 16)).toNat,
        UInt8.ofNat (Bytes.hexDigit (n % 16)).toNat] := by
  decide

theorem ofString_control :
    ∀ n < 32, Bytes.ofString (String.singleton (Char.ofNat n)) = [UInt8.ofNat n] := by
  decide

theorem escaped_escapeByte (b : UInt8) : Escaped b (escapeByte b) := by
  unfold escapeByte
  split_ifs with h₁ h₂ h₃ h₄ h₅ h₆ h₇ h₈
  · exact h₁ ▸ .short 0x22 (by decide) rfl
  · exact h₂ ▸ .short 0x5C (by decide) rfl
  · exact h₃ ▸ .short 0x62 (by decide) rfl
  · exact h₄ ▸ .short 0x66 (by decide) rfl
  · exact h₅ ▸ .short 0x6E (by decide) rfl
  · exact h₆ ▸ .short 0x72 (by decide) rfl
  · exact h₇ ▸ .short 0x74 (by decide) rfl
  · have hb : b.toNat < 32 := h₈
    have hcode := code_control b.toNat hb
    rw [UInt8.ofNat_toNat] at hcode
    rw [hcode]
    refine .code _ _ h₈ fun rest => ?_
    have hzero : hexValue? 0x30 = some 0 := rfl
    simp only [hex4?, hzero, hexValue?_hexDigit _ (show b.toNat / 16 < 16 by omega),
      hexValue?_hexDigit _ (show b.toNat % 16 < 16 by omega), Option.pure_def,
      Option.bind_eq_bind, Option.bind_some]
    congr 2
    omega
  · exact .plain h₂ h₁ (UInt8.not_lt.1 h₈)

theorem Escaped.unescapeFirst? {b : UInt8} {s : Bytes} (h : Escaped b s) (rest : Bytes) :
    unescapeFirst? (s ++ rest) = some ([b], rest) := by
  cases h with
  | plain hb => simp [Json.unescapeFirst?, hb]
  | short c hu hc => simp [Json.unescapeFirst?, hc]
  | code d e hb hde =>
    have hn : b.toNat < 32 := hb
    have h₁ : ¬(0xDC00 ≤ b.toNat ∧ b.toNat ≤ 0xDFFF) := by omega
    have h₂ : ¬(0xD800 ≤ b.toNat ∧ b.toNat ≤ 0xDBFF) := by omega
    simp [Json.unescapeFirst?, unicodeEscape?, hde, h₁, h₂, ofString_control _ hn]

theorem Escaped.rawFirst? {b : UInt8} {s : Bytes} (h : Escaped b s) (rest : Bytes) :
    rawFirst? (s ++ rest) = some (s, rest) := by
  cases h with
  | plain hb hq hc => simp [Json.rawFirst?, hb, hq, hc]
  | short c hu hc => simp [Json.rawFirst?, hc]
  | code d e hb hde => simp [Json.rawFirst?, hde]

/-- A byte as written is not empty, and does not start with a quote. -/
theorem Escaped.exists_cons {b : UInt8} {s : Bytes} (h : Escaped b s) :
    ∃ c s', s = c :: s' ∧ c ≠ 0x22 := by
  cases h with
  | plain hb hq => exact ⟨b, [], rfl, hq⟩
  | short c => exact ⟨0x5C, _, rfl, by decide⟩
  | code d e => exact ⟨0x5C, _, rfl, by decide⟩

/-- Bytes as written between quotes. -/
def escape (bs : Bytes) : Bytes := bs.flatMap escapeByte

@[simp] theorem escape_nil : escape [] = [] := rfl

theorem escape_cons (b : UInt8) (bs : Bytes) : escape (b :: bs) = escapeByte b ++ escape bs := by
  simp [escape]

theorem length_le_escape (bs : Bytes) : bs.length ≤ (escape bs).length := by
  induction bs with
  | nil => simp
  | cons b bs ih =>
    obtain ⟨c, s, hs, -⟩ := (escaped_escapeByte b).exists_cons
    rw [escape_cons, hs]
    simp only [List.length_cons, List.length_append, List.cons_append]
    omega

theorem unescapeFrom_escape {fuel : Nat} {bs : Bytes} (h : bs.length ≤ fuel) :
    unescapeFrom fuel (escape bs) = some bs := by
  induction bs generalizing fuel with
  | nil => cases fuel <;> rfl
  | cons b bs ih =>
    obtain ⟨fuel, rfl⟩ : ∃ m, fuel = m + 1 := ⟨fuel - 1, by simp at h; omega⟩
    have hfirst := (escaped_escapeByte b).unescapeFirst? (escape bs)
    obtain ⟨c, s, hs, -⟩ := (escaped_escapeByte b).exists_cons
    rw [escape_cons]
    rw [hs] at hfirst ⊢
    rw [List.cons_append] at hfirst ⊢
    rw [unescapeFrom, hfirst]
    · simp [ih (Nat.le_of_succ_le_succ h)]
    · exact List.cons_ne_nil _ _

/-- Bytes between quotes stand for the bytes they were written for. -/
theorem unescape?_escape (bs : Bytes) : unescape? (escape bs) = some bs :=
  unescapeFrom_escape (length_le_escape bs)

theorem unquote?_escape (s : String) : unquote? (escape (Bytes.ofString s)) = some s := by
  rw [unquote?, unescape?_escape]
  exact Bytes.toString?_ofString s

/-- Every text is read back from the string written for it. -/
theorem text?_ofText (s : String) : (ofText s).text? = some s := unquote?_escape s

theorem rawFrom_escape {fuel : Nat} {bs : Bytes} (h : bs.length ≤ fuel) (rest : Bytes) :
    rawFrom fuel (escape bs ++ 0x22 :: rest) = some (escape bs, rest) := by
  induction bs generalizing fuel with
  | nil => cases fuel <;> rfl
  | cons b bs ih =>
    obtain ⟨fuel, rfl⟩ : ∃ m, fuel = m + 1 := ⟨fuel - 1, by simp at h; omega⟩
    have hfirst := (escaped_escapeByte b).rawFirst? (escape bs ++ 0x22 :: rest)
    obtain ⟨c, s, hs, hc⟩ := (escaped_escapeByte b).exists_cons
    rw [escape_cons, List.append_assoc]
    rw [hs] at hfirst ⊢
    rw [List.cons_append] at hfirst ⊢
    rw [rawFrom, hfirst]
    · simp [ih (Nat.le_of_succ_le_succ h)]
    · simpa using hc

/-- The bytes of a string end at the first quote that is not escaped. -/
theorem raw?_escape (bs rest : Bytes) : raw? (escape bs ++ 0x22 :: rest) = some (escape bs, rest) :=
  rawFrom_escape (by have := length_le_escape bs; simp; omega) rest

/-! ## Numbers -/

/-- The decimal digits of a number. -/
def decimal (n : Nat) : Bytes := Bytes.ofString (toString n)

/-- The digit of a number below ten. -/
def digit (n : Nat) : UInt8 := UInt8.ofNat (0x30 + n)

theorem ofString_ofList_append (cs : List Char) (c : Char) :
    Bytes.ofString (String.ofList (cs ++ [c])) =
      Bytes.ofString (String.ofList cs) ++ Bytes.ofString (String.singleton c) := by
  simp [Bytes.ofString]

theorem ofString_digitChar :
    ∀ n < 10, Bytes.ofString (String.singleton (Nat.digitChar n)) = [digit n] := by
  decide

theorem decimal_of_lt {n : Nat} (h : n < 10) : decimal n = [digit n] := by
  rw [decimal, Nat.toString_eq_ofList_toDigits, Nat.toDigits_of_lt_base h]
  exact ofString_digitChar n h

theorem decimal_of_le {n : Nat} (h : 10 ≤ n) : decimal n = decimal (n / 10) ++ [digit (n % 10)] := by
  rw [decimal, decimal, Nat.toString_eq_ofList_toDigits, Nat.toDigits_of_base_le (by decide) h,
    ofString_ofList_append, ofString_digitChar _ (Nat.mod_lt _ (by decide)),
    Nat.toString_eq_ofList_toDigits]


theorem isDigit_digit : ∀ n < 10, isDigit (digit n) = true := by decide

theorem toNat_digit : ∀ n < 10, (digit n).toNat - 0x30 = n := by decide

theorem digit_ne_zero : ∀ n < 10, n ≠ 0 → digit n ≠ 0x30 := by decide

theorem digit_ne_sign : ∀ n < 10, digit n ≠ 0x2D := by decide

/-- Nothing but a number starts with a digit. -/
theorem digit_opens : ∀ n < 10, isBlank (digit n) = false ∧
    ∀ b ∈ [0x7B, 0x5B, 0x5D, 0x22, 0x74, 0x66, 0x6E], digit n ≠ b := by
  decide +kernel

theorem isDigit_of_mem_decimal (n : Nat) : ∀ b ∈ decimal n, isDigit b = true := by
  induction n using Nat.strongRecOn with
  | ind n ih =>
    rcases Nat.lt_or_ge n 10 with h | h
    · rw [decimal_of_lt h]
      simpa using isDigit_digit n h
    · rw [decimal_of_le h]
      intro b hb
      rcases List.mem_append.1 hb with hb | hb
      · exact ih _ (by omega) b hb
      · rw [List.mem_singleton.1 hb]
        exact isDigit_digit _ (Nat.mod_lt _ (by decide))

theorem decimalValue_concat (ds : Bytes) (d : UInt8) :
    decimalValue (ds ++ [d]) = decimalValue ds * 10 + (d.toNat - 0x30) := by
  simp [decimalValue]

theorem decimalValue_decimal (n : Nat) : decimalValue (decimal n) = n := by
  induction n using Nat.strongRecOn with
  | ind n ih =>
    rcases Nat.lt_or_ge n 10 with h | h
    · rw [decimal_of_lt h, ← List.nil_append [digit n], decimalValue_concat, toNat_digit n h]
      simp [decimalValue]
    · rw [decimal_of_le h, decimalValue_concat, ih _ (by omega),
        toNat_digit _ (Nat.mod_lt _ (by decide))]
      omega

/-- A number is read back from its digits if it is in bounds. -/
theorem nat?_ofNat {bound n : Nat} (h : n < bound) : nat? bound (ofNat n) = some n := by
  have hall : (decimal n).all isDigit = true := List.all_eq_true.2 (isDigit_of_mem_decimal n)
  have hval := decimalValue_decimal n
  unfold decimal at hall hval
  simp only [ofNat, nat?, hall, hval, h, decide_true, Bool.and_self, if_true]

/-- Zero is the only number whose digits start with a zero, and has no other digit. -/
theorem decimal_head (n : Nat) :
    ∃ k ds, k < 10 ∧ decimal n = digit k :: ds ∧ (k = 0 → ds = []) := by
  induction n using Nat.strongRecOn with
  | ind n ih =>
    rcases Nat.lt_or_ge n 10 with h | h
    · exact ⟨n, [], h, decimal_of_lt h, fun _ => rfl⟩
    · obtain ⟨k, ds, hk, hds, hzero⟩ := ih (n / 10) (by omega)
      refine ⟨k, ds ++ [digit (n % 10)], hk, by rw [decimal_of_le h, hds]; rfl, ?_⟩
      rintro rfl
      -- The number without its last digit would be zero.
      have hval := decimalValue_decimal (n / 10)
      rw [hds, hzero rfl] at hval
      have : decimalValue [digit 0] = 0 := rfl
      omega

/-- What may stand behind a value: nothing, a comma, or the end of what it is part of. -/
def Ends (rest : Bytes) : Prop := ∀ b ∈ rest.head?, b = 0x2C ∨ b = 0x5D ∨ b = 0x7D

theorem ends_nil : Ends [] := by simp [Ends]

theorem ends_comma (s : Bytes) : Ends (0x2C :: s) := by simp [Ends]

theorem ends_bracket (s : Bytes) : Ends (0x5D :: s) := by simp [Ends]

theorem ends_brace (s : Bytes) : Ends (0x7D :: s) := by simp [Ends]

theorem Ends.takeWhile {rest : Bytes} (h : Ends rest) {ds : Bytes}
    (hds : ∀ b ∈ ds, isDigit b = true) :
    (ds ++ rest).takeWhile isDigit = ds ∧ (ds ++ rest).dropWhile isDigit = rest := by
  have hrest : rest.takeWhile isDigit = [] ∧ rest.dropWhile isDigit = rest := by
    cases rest with
    | nil => exact ⟨rfl, rfl⟩
    | cons b rest => rcases h b rfl with rfl | rfl | rfl <;> exact ⟨rfl, rfl⟩
  rw [List.takeWhile_append_of_pos hds, List.dropWhile_append_of_pos hds, hrest.1, hrest.2,
    List.append_nil]
  exact ⟨rfl, rfl⟩

theorem Ends.exponent? {rest : Bytes} (h : Ends rest) : exponent? rest = some ([], rest) := by
  cases rest with
  | nil => rfl
  | cons b rest => rcases h b rfl with rfl | rfl | rfl <;> rfl

theorem Ends.fraction? {rest : Bytes} (h : Ends rest) : fraction? rest = some ([], rest) := by
  cases rest with
  | nil => rfl
  | cons b rest => rcases h b rfl with rfl | rfl | rfl <;> rfl

theorem Ends.whole?_decimal {rest : Bytes} (h : Ends rest) (n : Nat) :
    whole? (decimal n ++ rest) = some (decimal n, rest) := by
  obtain ⟨k, ds, hk, hds, hzero⟩ := decimal_head n
  rcases Nat.eq_zero_or_pos k with rfl | hpos
  · have hrest : rest.head?.any isDigit = false := by
      cases rest with
      | nil => rfl
      | cons b rest => rcases h b rfl with rfl | rfl | rfl <;> rfl
    rw [hds, hzero rfl]
    exact if_neg (by simp [hrest])
  · obtain ⟨htake, hdrop⟩ := h.takeWhile (isDigit_of_mem_decimal n)
    rw [hds, List.cons_append] at *
    rw [whole?, digits?, htake, hdrop]
    simpa using digit_ne_zero k hk (Nat.pos_iff_ne_zero.1 hpos)

/-- The digits of a number end where something else begins. -/
theorem Ends.number?_decimal {rest : Bytes} (h : Ends rest) (n : Nat) :
    number? (decimal n ++ rest) = some (decimal n, rest) := by
  obtain ⟨k, ds, hk, hds, -⟩ := decimal_head n
  have hd := digit_ne_sign k hk
  have hwhole := h.whole?_decimal n
  rw [hds, List.cons_append] at hwhole ⊢
  simp [number?, hd, hwhole, h.fraction?, h.exponent?]

/-! ## Values -/

/-- A value made the way a writer makes it: its numbers are natural numbers, its strings and
    names are escaped. -/
inductive Plain : Json → Prop
  | null : Plain null
  | bool (b : Bool) : Plain (bool b)
  | number (n : Nat) : Plain (ofNat n)
  | string (bs : Bytes) : Plain (string (escape bs))
  | array {items : List Json} (h : ∀ v ∈ items, Plain v) : Plain (array items)
  | object {members : List (Bytes × Json)} (hn : ∀ m ∈ members, ∃ bs, m.1 = escape bs)
      (hv : ∀ m ∈ members, Plain m.2) : Plain (object members)

/-- The text starts with something that a reader does not skip and does not take for the end of
    an array. -/
def Opens (s : Bytes) : Prop := ∃ b s', s = b :: s' ∧ isBlank b = false ∧ b ≠ 0x5D

theorem Opens.append {s : Bytes} (h : Opens s) (rest : Bytes) : Opens (s ++ rest) := by
  obtain ⟨b, s', rfl, hb, hc⟩ := h
  exact ⟨b, s' ++ rest, rfl, hb, hc⟩

theorem Plain.opens {v : Json} (h : Plain v) : Opens (write v) := by
  cases h with
  | null => exact ⟨0x6E, _, rfl, by decide, by decide⟩
  | bool b => cases b <;> exact ⟨_, _, rfl, by decide, by decide⟩
  | number n =>
    obtain ⟨k, ds, hk, hds, -⟩ := decimal_head n
    exact ⟨digit k, ds, hds, (digit_opens k hk).1, (digit_opens k hk).2 _ (by decide)⟩
  | string bs => exact ⟨0x22, _, rfl, by decide, by decide⟩
  | array h => exact ⟨0x5B, _, rfl, by decide, by decide⟩
  | object hn hv => exact ⟨0x7B, _, rfl, by decide, by decide⟩

/-! ## Reading -/

/-- The items of an array with items open with the first. -/
theorem opens_writeItems {v : Json} (hv : Plain v) (vs : List Json) :
    Opens (writeItems (v :: vs)) := by
  cases vs with
  | nil => exact hv.opens
  | cons w ws => exact hv.opens.append _

theorem opens_writeMembers (name : Bytes) (v : Json) (ms : List (Bytes × Json)) :
    ∃ s, writeMembers ((name, v) :: ms) = 0x22 :: s := by
  cases ms <;> exact ⟨_, rfl⟩

/-- Something that is neither blank nor a quote follows in the text. -/
theorem skipBlanks_cons {b : UInt8} (h : isBlank b = false) (s : Bytes) :
    skipBlanks (b :: s) = b :: s :=
  List.dropWhile_cons_of_neg (by simp [h])

section Steps

variable {fuel : Nat} {rest : Bytes}

theorem readValue_number (hrest : Ends rest) (n : Nat) :
    readValue (fuel + 1) (write (ofNat n) ++ rest) = some (ofNat n, rest) := by
  have hnum := hrest.number?_decimal n
  obtain ⟨k, ds, hk, hds, -⟩ := decimal_head n
  obtain ⟨hblank, hne⟩ := digit_opens k hk
  have hwrite : write (ofNat n) = decimal n := rfl
  simp only [List.forall_mem_cons] at hne
  obtain ⟨h₁, h₂, -, h₃, h₄, h₅, h₆, -⟩ := hne
  rw [hds, List.cons_append] at hnum
  rw [hwrite, hds, List.cons_append, readValue, skipBlanks_cons hblank]
  simp only [h₁, h₂, h₃, h₄, h₅, h₆, if_false, hnum, Option.map_some]
  rw [← hds]
  rfl

theorem readValue_array {vs : List Json} (hvs : ∀ v ∈ vs, Plain v)
    (hread : vs ≠ [] → readItems fuel (writeItems vs ++ 0x5D :: rest) = some (vs, rest)) :
    readValue (fuel + 1) (write (array vs) ++ rest) = some (array vs, rest) := by
  rw [write, List.cons_append, List.append_assoc, List.singleton_append, readValue,
    skipBlanks_cons (by decide)]
  cases vs with
  | nil => rfl
  | cons v vs =>
    have hopens := opens_writeItems (hvs v List.mem_cons_self) vs
    have hread := hread (List.cons_ne_nil v vs)
    obtain ⟨b, s, hs, hb, hc⟩ := hopens
    rw [hs, List.cons_append] at hread ⊢
    simp [skipBlanks_cons hb, hc, hread]

theorem readValue_object {ms : List (Bytes × Json)}
    (hread : ms ≠ [] → readMembers fuel (writeMembers ms ++ 0x7D :: rest) = some (ms, rest)) :
    readValue (fuel + 1) (write (object ms) ++ rest) = some (object ms, rest) := by
  rw [write, List.cons_append, List.append_assoc, List.singleton_append, readValue,
    skipBlanks_cons (by decide)]
  cases ms with
  | nil => rfl
  | cons m ms =>
    have hread := hread (List.cons_ne_nil m ms)
    obtain ⟨s, hs⟩ := opens_writeMembers m.1 m.2 ms
    rw [hs, List.cons_append] at hread ⊢
    simp [skipBlanks_cons (show isBlank 0x22 = false by decide), hread]

theorem readItems_cons {v : Json} {vs : List Json}
    (hv : ∀ rest, Ends rest → readValue fuel (write v ++ rest) = some (v, rest))
    (hvs : vs ≠ [] → readItems fuel (writeItems vs ++ 0x5D :: rest) = some (vs, rest)) :
    readItems (fuel + 1) (writeItems (v :: vs) ++ 0x5D :: rest) = some (v :: vs, rest) := by
  cases vs with
  | nil =>
    rw [writeItems, readItems, hv _ (ends_bracket rest)]
    simp [skipBlanks_cons (show isBlank 0x5D = false by decide)]
  | cons w vs =>
    rw [writeItems, List.append_assoc, List.cons_append, readItems, hv _ (ends_comma _)]
    · simp [skipBlanks_cons (show isBlank 0x2C = false by decide), hvs (List.cons_ne_nil w vs)]
    · exact List.cons_ne_nil w vs

theorem readMembers_cons {bs : Bytes} {v : Json} {ms : List (Bytes × Json)}
    (hv : ∀ rest, Ends rest → readValue fuel (write v ++ rest) = some (v, rest))
    (hms : ms ≠ [] → readMembers fuel (writeMembers ms ++ 0x7D :: rest) = some (ms, rest)) :
    readMembers (fuel + 1) (writeMembers ((escape bs, v) :: ms) ++ 0x7D :: rest) =
      some ((escape bs, v) :: ms, rest) := by
  cases ms with
  | nil =>
    rw [writeMembers, List.cons_append, List.append_assoc, List.cons_append, List.cons_append,
      readMembers, skipBlanks_cons (by decide)]
    simp [raw?_escape, skipBlanks_cons (show isBlank 0x3A = false by decide),
      hv _ (ends_brace rest), skipBlanks_cons (show isBlank 0x7D = false by decide)]
  | cons m ms =>
    rw [writeMembers, List.cons_append, List.append_assoc, List.cons_append, List.cons_append,
      List.append_assoc, List.cons_append, readMembers, skipBlanks_cons (by decide)]
    · simp [raw?_escape, skipBlanks_cons (show isBlank 0x3A = false by decide),
        hv _ (ends_comma _), skipBlanks_cons (show isBlank 0x2C = false by decide),
        hms (List.cons_ne_nil m ms)]
    · exact List.cons_ne_nil m ms

end Steps

theorem length_writeItems_cons (v : Json) (vs : List Json) :
    (write v).length ≤ (writeItems (v :: vs)).length ∧
      (vs ≠ [] → (writeItems vs).length + 1 ≤ (writeItems (v :: vs)).length) := by
  cases vs with
  | nil => simp [writeItems]
  | cons w vs =>
    simp only [writeItems, List.length_cons, List.length_append]
    exact ⟨by omega, fun _ => by omega⟩

theorem length_writeMembers_cons (name : Bytes) (v : Json) (ms : List (Bytes × Json)) :
    (write v).length ≤ (writeMembers ((name, v) :: ms)).length ∧
      (ms ≠ [] → (writeMembers ms).length + 1 ≤ (writeMembers ((name, v) :: ms)).length) := by
  cases ms with
  | nil =>
    simp only [writeMembers, List.length_cons, List.length_append]
    exact ⟨by omega, fun h => absurd rfl h⟩
  | cons m ms =>
    simp only [writeMembers, List.length_cons, List.length_append]
    exact ⟨by omega, fun _ => by omega⟩

/-- Every plain value is read back, with fuel for twice its length. The same of the items of an
    array from one of them on, and of the members of an object. -/
theorem reads_back (fuel : Nat) :
    (∀ v rest, Plain v → Ends rest → 2 * (write v).length ≤ fuel →
      readValue fuel (write v ++ rest) = some (v, rest)) ∧
    (∀ vs rest, vs ≠ [] → (∀ v ∈ vs, Plain v) → 2 * (writeItems vs).length + 1 ≤ fuel →
      readItems fuel (writeItems vs ++ 0x5D :: rest) = some (vs, rest)) ∧
    (∀ ms rest, ms ≠ [] → (∀ m ∈ ms, ∃ bs, m.1 = escape bs) → (∀ m ∈ ms, Plain m.2) →
      2 * (writeMembers ms).length + 1 ≤ fuel →
      readMembers fuel (writeMembers ms ++ 0x7D :: rest) = some (ms, rest)) := by
  -- An item takes fuel for itself and for the list it stands in: hence twice the length, and one
  -- more for a list.
  induction fuel with
  | zero =>
    refine ⟨fun v rest hv hrest h => ?_, fun vs rest _ _ h => by omega,
      fun ms rest _ _ _ h => by omega⟩
    -- Every value is written with a first byte, so there is some fuel.
    obtain ⟨b, s, hs, -⟩ := hv.opens
    rw [hs, List.length_cons] at h
    omega
  | succ fuel ih =>
    obtain ⟨ihv, ihi, ihm⟩ := ih
    refine ⟨fun v rest hv hrest h => ?_, fun vs rest hne hvs h => ?_,
      fun ms rest hne hns hvs h => ?_⟩
    · cases hv with
      | null => rfl
      | bool b => cases b <;> rfl
      | number n => exact readValue_number hrest n
      | string bs =>
        rw [write, List.cons_append, List.append_assoc, List.singleton_append, readValue,
          skipBlanks_cons (by decide)]
        simp [raw?_escape]
      | array hvs =>
        refine readValue_array hvs fun hne => ihi _ rest hne hvs ?_
        simp only [write, List.length_cons, List.length_append, List.length_nil] at h
        omega
      | object hns hvs =>
        refine readValue_object fun hne => ihm _ rest hne hns hvs ?_
        simp only [write, List.length_cons, List.length_append, List.length_nil] at h
        omega
    · obtain ⟨v, vs, rfl⟩ := List.exists_cons_of_ne_nil hne
      rw [List.forall_mem_cons] at hvs
      obtain ⟨hlen, hlens⟩ := length_writeItems_cons v vs
      refine readItems_cons (fun rest hrest => ihv v rest hvs.1 hrest (by omega)) fun hne =>
        ihi vs rest hne hvs.2 ?_
      have := hlens hne
      omega
    · obtain ⟨⟨name, v⟩, ms, rfl⟩ := List.exists_cons_of_ne_nil hne
      rw [List.forall_mem_cons] at hns hvs
      obtain ⟨⟨bs, rfl⟩, hns⟩ := hns
      obtain ⟨hlen, hlens⟩ := length_writeMembers_cons (escape bs) v ms
      refine readMembers_cons (fun rest hrest => ihv v rest hvs.1 hrest (by omega)) fun hne =>
        ihm ms rest hne hns hvs.2 ?_
      have := hlens hne
      omega

/-- A value is read back from its text. -/
theorem parse_write {v : Json} (h : Plain v) : parse (write v) = some v := by
  have hread := (reads_back (2 * (write v).length + 2)).1 v [] h ends_nil (by omega)
  rw [List.append_nil] at hread
  rw [parse, hread]
  rfl

end ReplicaRing.Json
