import Mathlib.Tactic

/-!
Texts as strings of JSON, as the Go library writes and reads them.

A Go string is a string of bytes and need not be UTF-8. The encoder goes over
its runes, escapes some of them, and writes the replacement character for every
byte that belongs to no rune. The decoder undoes the escapes. So a text comes
back as what `coerce` makes of it, which is the text itself exactly if it is
UTF-8.
-/

namespace RaftShardedKv.JsonText

/-! ### Runes -/

abbrev encodeRune : Char → List UInt8 := String.utf8EncodeChar

def decodeRune (text : List UInt8) : Option Char := text.toByteArray.utf8DecodeChar? 0

/-- The runes of a text after its first `skip` bytes; `none` stands for a byte
that no rune starts with. -/
def runesFrom : ℕ → List UInt8 → List (Option Char)
  | _, [] => []
  | skip + 1, _ :: text => runesFrom skip text
  | 0, b :: text =>
      match decodeRune (b :: text) with
      | some c => some c :: runesFrom (c.utf8Size - 1) text
      | none => none :: runesFrom 0 text

def runes (text : List UInt8) : List (Option Char) := runesFrom 0 text

def replacementChar : Char := Char.ofNat 0xfffd

/-- The text with the replacement character for every byte that is in no rune. -/
def coerce (text : List UInt8) : List UInt8 :=
  (runes text).flatMap fun rune => encodeRune (rune.getD replacementChar)

theorem decodeRune_encodeRune (c : Char) (rest : List UInt8) :
    decodeRune (encodeRune c ++ rest) = some c := by
  rw [decodeRune, List.toByteArray_append]
  exact ByteArray.utf8DecodeChar?_utf8EncodeChar_append

theorem exists_encodeRune (c : Char) :
    ∃ b tail, encodeRune c = b :: tail ∧ tail.length = c.utf8Size - 1 := by
  cases h : encodeRune c with
  | nil => exact absurd h String.utf8EncodeChar_ne_nil
  | cons b tail =>
      have hlen : (encodeRune c).length = c.utf8Size := String.length_utf8EncodeChar c
      rw [h, List.length_cons] at hlen
      exact ⟨b, tail, rfl, by omega⟩

theorem runesFrom_append (skipped text : List UInt8) :
    runesFrom skipped.length (skipped ++ text) = runes text := by
  induction skipped with
  | nil => rfl
  | cons b skipped ih => exact ih

theorem runes_encodeRune (c : Char) (rest : List UInt8) :
    runes (encodeRune c ++ rest) = some c :: runes rest := by
  obtain ⟨b, tail, hc, hlen⟩ := exists_encodeRune c
  have hdecode := decodeRune_encodeRune c rest
  rw [hc, List.cons_append] at hdecode ⊢
  rw [runes, runesFrom, hdecode]
  change some c :: runesFrom (c.utf8Size - 1) (tail ++ rest) = _
  rw [← hlen, runesFrom_append]

theorem runes_flatMap (cs : List Char) : runes (cs.flatMap encodeRune) = cs.map some := by
  induction cs with
  | nil => rfl
  | cons c cs ih => rw [List.flatMap_cons, runes_encodeRune, ih, List.map_cons]

def Valid (text : List UInt8) : Prop := ∃ cs : List Char, text = cs.flatMap encodeRune

theorem valid_coerce (text : List UInt8) : Valid (coerce text) :=
  ⟨(runes text).map fun rune => rune.getD replacementChar, by rw [coerce, List.flatMap_map]⟩

theorem coerce_eq_iff (text : List UInt8) : coerce text = text ↔ Valid text := by
  constructor
  · exact fun h => h ▸ valid_coerce text
  · rintro ⟨cs, rfl⟩
    rw [coerce, runes_flatMap, List.flatMap_map]
    rfl

/-! ### The encoder -/

def hex (n : ℕ) : UInt8 := UInt8.ofNat (if n < 10 then 48 + n else 87 + n)

/-- What the encoder writes for a rune, with the characters of HTML escaped. -/
def escape : Option Char → List UInt8
  | none => [92, 117, 102, 102, 102, 100]
  | some c =>
      if c.toNat = 34 ∨ c.toNat = 92 then [92, UInt8.ofNat c.toNat]
      else if c.toNat = 8 then [92, 98]
      else if c.toNat = 12 then [92, 102]
      else if c.toNat = 10 then [92, 110]
      else if c.toNat = 13 then [92, 114]
      else if c.toNat = 9 then [92, 116]
      else if c.toNat < 32 ∨ c.toNat = 60 ∨ c.toNat = 62 ∨ c.toNat = 38 then
        [92, 117, 48, 48, hex (c.toNat / 16), hex (c.toNat % 16)]
      else if c.toNat = 0x2028 ∨ c.toNat = 0x2029 then
        [92, 117, 50, 48, 50, hex (c.toNat % 16)]
      else encodeRune c

def quote (text : List UInt8) : List UInt8 := 34 :: (runes text).flatMap escape ++ [34]

/-! ### The decoder -/

def hexDigit (b : UInt8) : Option ℕ :=
  if 48 ≤ b ∧ b ≤ 57 then some (b.toNat - 48)
  else if 97 ≤ b ∧ b ≤ 102 then some (b.toNat - 87)
  else if 65 ≤ b ∧ b ≤ 70 then some (b.toNat - 55)
  else none

/-- The number in four digits, and what follows. -/
def getu4 : List UInt8 → Option (ℕ × List UInt8)
  | a :: b :: c :: d :: rest => do
      let a ← hexDigit a
      let b ← hexDigit b
      let c ← hexDigit c
      let d ← hexDigit d
      some (a * 4096 + b * 256 + c * 16 + d, rest)
  | _ => none

/-- The second half of a pair of surrogates, and what follows it. -/
def lowSurrogate : List UInt8 → Option (ℕ × List UInt8)
  | 92 :: 117 :: text => do
      let (low, rest) ← getu4 text
      if 0xdc00 ≤ low ∧ low < 0xe000 then some (low, rest) else none
  | _ => none

/-- The character after `\u`. A surrogate is replaced if it has no other half. -/
def unicode (text : List UInt8) : Option (Char × List UInt8) := do
  let (code, rest) ← getu4 text
  if code < 0xd800 ∨ 0xe000 ≤ code then some (Char.ofNat code, rest)
  else if code < 0xdc00 then
    match lowSurrogate rest with
    | some (low, rest) =>
        some (Char.ofNat ((code - 0xd800) * 0x400 + (low - 0xdc00) + 0x10000), rest)
    | none => some (replacementChar, rest)
  else some (replacementChar, rest)

/-- The character after a backslash. -/
def unescape : List UInt8 → Option (Char × List UInt8)
  | 34 :: rest => some (Char.ofNat 34, rest)
  | 92 :: rest => some (Char.ofNat 92, rest)
  | 47 :: rest => some (Char.ofNat 47, rest)
  | 98 :: rest => some (Char.ofNat 8, rest)
  | 102 :: rest => some (Char.ofNat 12, rest)
  | 110 :: rest => some (Char.ofNat 10, rest)
  | 114 :: rest => some (Char.ofNat 13, rest)
  | 116 :: rest => some (Char.ofNat 9, rest)
  | 117 :: rest => unicode rest
  | _ => none

/-- The next character of a string, `none` for its closing quote. -/
def readRune : List UInt8 → Option (Option Char × List UInt8)
  | [] => none
  | b :: rest =>
      if b = 34 then some (none, rest)
      else if b = 92 then (unescape rest).map fun r => (some r.1, r.2)
      else if b < 32 then none
      else
        match decodeRune (b :: rest) with
        | some c => some (some c, rest.drop (c.utf8Size - 1))
        | none => some (some replacementChar, rest)

/-- The text up to the closing quote, of at most `fuel` characters. -/
def readText : ℕ → List UInt8 → Option (List UInt8 × List UInt8)
  | 0, _ => none
  | fuel + 1, text =>
      match readRune text with
      | none => none
      | some (none, rest) => some ([], rest)
      | some (some c, rest) => (readText fuel rest).map fun r => (encodeRune c ++ r.1, r.2)

def unquote : List UInt8 → Option (List UInt8 × List UInt8)
  | 34 :: rest => readText (rest.length + 1) rest
  | _ => none

/-! ### What is read back -/

theorem hexDigit_hex {n : ℕ} (h : n < 16) : hexDigit (hex n) = some n := by
  interval_cases n <;> rfl

theorem encodeRune_ascii {c : Char} (h : c.toNat < 128) :
    encodeRune c = [UInt8.ofNat c.toNat] := by
  have hle : c.val.toNat ≤ 0x7f := Nat.le_of_lt_succ h
  simp only [encodeRune, String.utf8EncodeChar, if_pos hle]
  rfl

theorem toNat_ofNat {n : ℕ} (h : n < 128) : (Char.ofNat n).toNat = n := by
  have hvalid : n.isValidChar := Or.inl (h.trans (by decide))
  rw [Char.ofNat, dif_pos hvalid]
  exact UInt32.toNat_ofNatLT ..

theorem toNat_lt_of_encodeRune {c : Char} {b : UInt8} {tail : List UInt8}
    (h : encodeRune c = b :: tail) (hb : b < 128) : c.toNat = b.toNat := by
  have hnat : b.toNat < 128 := UInt8.lt_iff_toNat_lt.mp hb
  have hvalid : (Char.ofNat b.toNat).toNat = b.toNat := toNat_ofNat hnat
  have hone : encodeRune (Char.ofNat b.toNat) = [b] := by
    rw [encodeRune_ascii (by rw [hvalid]; exact hnat), hvalid, UInt8.ofNat_toNat]
  have hdecode : decodeRune (b :: tail) = some (Char.ofNat b.toNat) := by
    have := decodeRune_encodeRune (Char.ofNat b.toNat) tail
    rwa [hone] at this
  have hself := decodeRune_encodeRune c []
  rw [List.append_nil, h, hdecode] at hself
  rw [← Option.some.inj hself, hvalid]

theorem readRune_encodeRune {c : Char} (rest : List UInt8) (hquote : c.toNat ≠ 34)
    (hslash : c.toNat ≠ 92) (hprint : 32 ≤ c.toNat) :
    readRune (encodeRune c ++ rest) = some (some c, rest) := by
  obtain ⟨b, tail, hc, hlen⟩ := exists_encodeRune c
  have hdecode := decodeRune_encodeRune c rest
  rw [hc, List.cons_append] at hdecode
  have hb : b < 128 → c.toNat = b.toNat := toNat_lt_of_encodeRune hc
  have h34 : b ≠ 34 := by
    rintro rfl
    exact hquote (hb (by decide))
  have h92 : b ≠ 92 := by
    rintro rfl
    exact hslash (hb (by decide))
  have h32 : ¬ b < 32 := by
    intro hlt
    have hnat := UInt8.lt_iff_toNat_lt.mp hlt
    have := hb (UInt8.lt_trans hlt (by decide))
    rw [this] at hprint
    exact absurd hnat (not_lt.mpr hprint)
  rw [hc, List.cons_append, readRune, if_neg h34, if_neg h92, if_neg h32, hdecode]
  change some (some c, (tail ++ rest).drop (c.utf8Size - 1)) = _
  rw [← hlen, List.drop_left]

theorem readRune_short {e : UInt8} {n : ℕ}
    (he : ∀ rest, unescape (e :: rest) = some (Char.ofNat n, rest)) {c : Char} (hc : c.toNat = n)
    (rest : List UInt8) : readRune (92 :: e :: rest) = some (some c, rest) := by
  rw [readRune, if_neg (by decide), if_pos rfl, he, Option.map_some, ← hc, Char.ofNat_toNat]

theorem getu4_digits {a b c d : UInt8} {w x y z : ℕ} (ha : hexDigit a = some w)
    (hb : hexDigit b = some x) (hc : hexDigit c = some y) (hd : hexDigit d = some z)
    (rest : List UInt8) :
    getu4 (a :: b :: c :: d :: rest) = some (w * 4096 + x * 256 + y * 16 + z, rest) := by
  simp [getu4, ha, hb, hc, hd]

theorem readRune_unicode {text rest : List UInt8} {n : ℕ} {c : Char}
    (h : getu4 text = some (n, rest)) (hc : n = c.toNat) (hlt : c.toNat < 0xd800) :
    readRune (92 :: 117 :: text) = some (some c, rest) := by
  rw [readRune, if_neg (by decide), if_pos rfl, unescape, unicode, h, hc]
  simp [hlt]

theorem readRune_escape (rune : Option Char) (rest : List UInt8) :
    readRune (escape rune ++ rest) = some (some (rune.getD replacementChar), rest) := by
  have hzero : hexDigit 48 = some 0 := rfl
  have htwo : hexDigit 50 = some 2 := rfl
  cases rune with
  | none =>
      have hf : hexDigit 102 = some 15 := rfl
      have hd : hexDigit 100 = some 13 := rfl
      simp [escape, readRune, unescape, unicode, getu4, hf, hd, replacementChar]
  | some c =>
      simp only [escape, Option.getD_some]
      split_ifs with h1 h2 h3 h4 h5 h6 h7 h8
      · rcases h1 with h | h
        · rw [h]
          exact readRune_short (fun _ => rfl) h rest
        · rw [h]
          exact readRune_short (fun _ => rfl) h rest
      · exact readRune_short (fun _ => rfl) h2 rest
      · exact readRune_short (fun _ => rfl) h3 rest
      · exact readRune_short (fun _ => rfl) h4 rest
      · exact readRune_short (fun _ => rfl) h5 rest
      · exact readRune_short (fun _ => rfl) h6 rest
      · exact readRune_unicode (getu4_digits hzero hzero (hexDigit_hex (by omega))
          (hexDigit_hex (by omega)) rest) (by omega) (by omega)
      · exact readRune_unicode (getu4_digits htwo hzero htwo (hexDigit_hex (by omega)) rest)
          (by omega) (by omega)
      · exact readRune_encodeRune rest (by tauto) (by tauto) (by omega)

theorem readText_escape {fuel : ℕ} (items : List (Option Char)) (rest : List UInt8)
    (hfuel : items.length < fuel) : readText fuel (items.flatMap escape ++ 34 :: rest) =
      some (items.flatMap fun rune => encodeRune (rune.getD replacementChar), rest) := by
  induction items generalizing fuel with
  | nil =>
      obtain ⟨fuel, rfl⟩ := Nat.exists_eq_succ_of_ne_zero (Nat.ne_zero_of_lt hfuel)
      rfl
  | cons rune items ih =>
      obtain ⟨fuel, rfl⟩ := Nat.exists_eq_succ_of_ne_zero (Nat.ne_zero_of_lt hfuel)
      rw [List.flatMap_cons, List.append_assoc, readText, readRune_escape]
      simp [ih (Nat.lt_of_succ_lt_succ hfuel)]

theorem length_le_escape (items : List (Option Char)) :
    items.length ≤ (items.flatMap escape).length := by
  induction items with
  | nil => exact le_rfl
  | cons rune items ih =>
      have hpos : 0 < (escape rune).length := by
        rw [List.length_pos_iff]
        intro hnil
        have hread := readRune_escape rune []
        rw [hnil] at hread
        cases hread
      rw [List.flatMap_cons, List.length_append, List.length_cons]
      omega

/-- **A text comes back with its invalid bytes replaced.** -/
theorem unquote_quote (text rest : List UInt8) :
    unquote (quote text ++ rest) = some (coerce text, rest) := by
  have hlen := length_le_escape (runes text)
  rw [quote, List.append_assoc, List.cons_append, List.singleton_append, unquote]
  refine readText_escape _ _ ?_
  rw [List.length_append]
  omega

end RaftShardedKv.JsonText
