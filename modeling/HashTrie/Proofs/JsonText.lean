import HashTrie.Json.Basic
import HashTrie.Json.Token
import Mathlib.Data.List.TakeWhile

/-!
# The tokens of compact JSON text

What is written as compact text is scanned as the tokens that it is made of (`Scans`), whatever
follows it. A string is scanned character by character: each is read back from the way in which
it is escaped (`readText_escapeChar`), and the part before the first escape is kept besides.
A number ends where nothing follows that could belong to it (`EndsNumber`), and its decimal
digits give its value back (`readUnsigned_toDigits`).
-/

namespace HashTrie.Json

/-- Characters have certain tokens, however many steps are granted beyond those they need. -/
def Scans (chars : List Char) (scanned : List Token) : Prop :=
  ∀ steps, chars.length ≤ steps → tokensWithin steps chars = scanned

variable {chars rest : List Char} {scanned : List Token}

theorem tokens_of_scans {text : String} (scans : Scans text.toList scanned) :
    tokens text = scanned :=
  scans _ (Nat.le_refl _)

theorem scans_nil : Scans [] [] := by
  intro steps _
  cases steps <;> rfl

/-- One token at the front, and those of what it leaves. -/
theorem Scans.step {token : Token} (scans : Scans rest scanned)
    (shorter : rest.length < chars.length)
    (one : ∀ steps, tokensWithin (steps + 1) chars = token :: tokensWithin steps rest) :
    Scans chars (token :: scanned) := by
  intro steps enough
  cases steps with
  | zero => omega
  | succ steps => rw [one, scans steps (by omega)]

/-- The token of a character that is a token by itself. -/
def markToken? : Char → Option Token
  | '\x7b' => some .openMap
  | '\x7d' => some .closeMap
  | '[' => some .openList
  | ']' => some .closeList
  | ':' => some .colon
  | ',' => some .comma
  | _ => none

theorem Scans.mark {token : Token} (scans : Scans rest scanned) (mark : Char)
    (given : markToken? mark = some token) : Scans (mark :: rest) (token :: scanned) := by
  refine scans.step (Nat.lt_succ_self _) fun steps => ?_
  unfold markToken? at given
  split at given
  iterate 6
    · cases given
      rfl
  · cases given

section Strings

/-- Whether a character is escaped in a string. -/
def escaped (char : Char) : Bool := char == '"' || char == '\\' || char.toNat < 0x20

theorem hexValue?_hexDigit {digit : Nat} (small : digit < 16) :
    hexValue? (Text.hexDigit digit) = some digit := by
  revert digit
  decide

/-- The four digits of a code are read as the code. -/
theorem readHex4_hexDigits {code : Nat} (small : code < 0x10000) (rest : List Char) :
    readHex4 (Text.hexDigits 4 code ++ rest) = some (code, rest) := by
  have digit (value : Nat) := hexValue?_hexDigit (Nat.mod_lt value (Nat.zero_lt_succ 15))
  simp only [Text.hexDigits, List.nil_append, List.cons_append, readHex4,
    List.mapM_cons, List.mapM_nil, digit, Option.pure_def, Option.bind_eq_bind, Option.bind_some,
    List.foldl_cons, List.foldl_nil, Option.some.injEq, Prod.mk.injEq, and_true]
  omega

/-- An escaped character is read from its escape. -/
theorem exists_escape {char : Char} (needed : escaped char = true) :
    ∃ code, (escapeChar char).toList = '\\' :: code ∧
      ∀ rest, readEscape (code ++ rest) = some (char, rest) := by
  unfold escapeChar
  split
  · exact ⟨['"'], rfl, fun _ => rfl⟩
  · exact ⟨['\\'], rfl, fun _ => rfl⟩
  · exact ⟨['b'], rfl, fun _ => rfl⟩
  · exact ⟨['f'], rfl, fun _ => rfl⟩
  · exact ⟨['n'], rfl, fun _ => rfl⟩
  · exact ⟨['r'], rfl, fun _ => rfl⟩
  · exact ⟨['t'], rfl, fun _ => rfl⟩
  · rename_i notQuote notSlash _ _ _ _ _
    have control : char.toNat < 0x20 := by
      simpa [escaped, Ne.intro notQuote, Ne.intro notSlash] using needed
    rw [if_pos control]
    refine ⟨'u' :: Text.hexDigits 4 char.toNat, by simp, ?_⟩
    intro rest
    rw [List.cons_append, readEscape, readHex4_hexDigits (by omega)]
    simp only [Char.ofNat_toNat]
    rw [if_pos (.inl (by omega))]

/-- Any other character stands for itself. -/
theorem toList_escapeChar {char : Char} (plain : escaped char = false) :
    (escapeChar char).toList = [char] := by
  unfold escapeChar
  split
  case h_8 =>
    have visible : ¬char.toNat < 0x20 := by
      intro control
      simp [escaped, control] at plain
    rw [if_neg visible, String.toList_singleton]
  -- the characters with an escape of their own are not plain
  all_goals cases plain

/-- A character is read back from the way in which it is written. The part before the first
escape ends with the first escaped character. -/
theorem readText_escapeChar (read : List Char) (lead : Option (List Char)) (char : Char)
    (rest : List Char) : readText read lead ((escapeChar char).toList ++ rest) =
      readText (char :: read) (if escaped char then some (lead.getD read) else lead) rest := by
  cases needed : escaped char with
  | true =>
      obtain ⟨code, written, given⟩ := exists_escape needed
      rw [written, List.cons_append, readText, given, if_pos rfl]
  | false =>
      obtain ⟨⟨notQuote, notSlash⟩, visible⟩ :
          (char ≠ '"' ∧ char ≠ '\\') ∧ ¬char.toNat < 0x20 := by simpa [escaped] using needed
      rw [toList_escapeChar needed, List.singleton_append, readText, if_neg visible,
        if_neg Bool.false_ne_true]
      · exact notQuote
      · exact notSlash

/-- The characters of a string as they are written in compact text. -/
theorem toList_quote (text : String) : (quote text).toList =
    '"' :: text.toList.flatMap (fun char => (escapeChar char).toList) ++ ['"'] := by
  have written (chars : List Char) (front : String) :
      (chars.foldl (fun quoted char => quoted ++ escapeChar char) front).toList =
        front.toList ++ chars.flatMap fun char => (escapeChar char).toList := by
    induction chars generalizing front with
    | nil => exact (List.append_nil _).symm
    | cons char chars ih =>
        rw [List.foldl_cons, ih, String.toList_append, List.append_assoc, List.flatMap_cons]
  rw [quote, String.toList_append, String.toList_append, String.foldl_eq_foldl_toList, written]
  rfl

/-- The characters before the first one that is escaped. -/
def plainFront (text : String) : List Char := text.toList.takeWhile fun char => !escaped char

/-- The token of a string. -/
def stringToken (text : String) : Token := .text text (plainFront text)

/-- A string is read up to its end. -/
theorem readText_chars (read : List Char) (lead : Option (List Char)) (chars rest : List Char) :
    readText read lead (chars.flatMap (fun char => (escapeChar char).toList) ++ '"' :: rest) =
      (lead.elim (read.reverse ++ chars.takeWhile fun char => !escaped char) List.reverse,
        some (String.ofList (read.reverse ++ chars), rest)) := by
  -- once a character was escaped, `lead` is what was read before it
  induction chars generalizing read lead with
  | nil =>
      rw [List.flatMap_nil, List.nil_append, readText]
      cases lead <;> simp
  | cons char chars ih =>
      rw [List.flatMap_cons, List.append_assoc, readText_escapeChar, ih]
      cases lead <;> cases escape : escaped char <;> simp [escape]

/-- A string is scanned as its text, and as the part of it before the first escape. -/
theorem Scans.text (scans : Scans rest scanned) (text : String) :
    Scans ((quote text).toList ++ rest) (stringToken text :: scanned) := by
  rw [toList_quote, List.append_assoc]
  refine scans.step ?_ fun steps => ?_
  · simp only [List.cons_append, List.length_cons, List.length_append]
    omega
  · rw [List.cons_append, List.singleton_append, tokensWithin, readText_chars]
    simp [stringToken, plainFront]

end Strings

section Numbers

/-- What follows a number does not belong to it. -/
def EndsNumber (rest : List Char) : Prop :=
  ∀ char ∈ rest.head?, char.isDigit = false ∧ char ∉ ['.', 'e', 'E']

theorem endsNumber_nil : EndsNumber [] := by
  intro char impossible
  cases impossible

theorem endsNumber_cons {char : Char} (rest : List Char)
    (other : char.isDigit = false ∧ char ∉ ['.', 'e', 'E']) : EndsNumber (char :: rest) := by
  rintro _ ⟨⟩
  exact other

namespace EndsNumber

theorem readDigits (ends : EndsNumber rest) {digits : List Char}
    (decimal : ∀ char ∈ digits, char.isDigit = true) :
    readDigits (digits ++ rest) = (digits.map fun digit => digit.toNat - 48, rest) := by
  have stops : rest.takeWhile Char.isDigit = [] ∧ rest.dropWhile Char.isDigit = rest := by
    cases rest with
    | nil => exact ⟨rfl, rfl⟩
    | cons char rest =>
        have other := (ends char rfl).1
        simp [other]
  rw [Json.readDigits, List.takeWhile_append_of_pos decimal, List.dropWhile_append_of_pos decimal,
    stops.1, stops.2, List.append_nil]

theorem readFraction (ends : EndsNumber rest) : readFraction rest = some ([], rest) := by
  cases rest with
  | nil => rfl
  | cons char rest =>
      have other : char ≠ '.' := fun dot => (ends char rfl).2 (by simp [dot])
      rw [Json.readFraction]
      rintro _ ⟨⟩
      exact other rfl

theorem readExponent (ends : EndsNumber rest) : readExponent rest = some (none, rest) := by
  cases rest with
  | nil => rfl
  | cons char rest =>
      have other : ¬(char = 'e' ∨ char = 'E') := by
        intro mark
        refine (ends char rfl).2 ?_
        rcases mark with rfl | rfl <;> simp
      simp only [Json.readExponent, if_neg other]

end EndsNumber

/-- The digits of a number do not start with zero, unless it is zero. -/
theorem exists_toDigits (magnitude : Nat) : ∃ digit others,
    Nat.toDigits 10 magnitude = digit.digitChar :: others ∧ digit < 10 ∧
      (digit = 0 → magnitude = 0) := by
  induction magnitude using Nat.strongRecOn with
  | _ magnitude ih =>
      by_cases small : magnitude < 10
      · exact ⟨magnitude, [], Nat.toDigits_of_lt_base small, small, id⟩
      · obtain ⟨digit, others, written, below, nonzero⟩ :=
          ih (magnitude / 10) (Nat.div_lt_self (by omega) (by omega))
        refine ⟨digit, others ++ [(magnitude % 10).digitChar], ?_, below, ?_⟩
        · rw [Nat.toDigits_of_base_le (by omega) (by omega), written]
          rfl
        · intro zero
          have := nonzero zero
          omega

/-- The digits of a number give its value. -/
theorem decimalValue_toDigits (magnitude : Nat) :
    decimalValue ((Nat.toDigits 10 magnitude).map fun digit => digit.toNat - 48) = magnitude := by
  have value := Nat.ofDigitChars_toDigits (b := 10) (n := magnitude) (by omega) (by omega)
  rw [Nat.ofDigitChars_eq_foldl] at value
  have steps : (fun (value : Nat) (digit : Char) => value * 10 + (digit.toNat - 48)) =
      fun value digit => 10 * value + (digit.toNat - '0'.toNat) := by
    funext value digit
    rw [Nat.mul_comm]
    rfl
  rw [decimalValue, List.foldl_map, steps, value]

/-- A number of several digits does not start with zero. -/
theorem toDigits_not_padded (magnitude : Nat) (next : Nat) (others : List Nat) :
    ((Nat.toDigits 10 magnitude).map fun digit => digit.toNat - 48) ≠ 0 :: next :: others := by
  intro padded
  obtain ⟨digit, back, written, small, nonzero⟩ := exists_toDigits magnitude
  rw [written, List.map_cons, List.cons.injEq] at padded
  have zero : digit = 0 := (Nat.toNat_digitChar_sub_48_of_lt_ten small).symm.trans padded.1
  rw [nonzero zero, Nat.toDigits_zero] at written
  rw [← (List.cons.inj written).2] at padded
  cases padded.2

/-- Whole digits are an integer, if it fits. -/
theorem numberOf?_whole {negative : Bool} {whole : List Nat} {magnitude : Nat}
    (value : decimalValue whole = magnitude)
    (fits : if negative then 0 < magnitude ∧ Int64.minValue.toInt ≤ -(magnitude : Int)
      else magnitude < UInt64.size) :
    numberOf? negative whole [] none =
      some (.integer (if negative then -(magnitude : Int) else magnitude)) := by
  rw [numberOf?, value]
  cases negative with
  | false => simpa using fits
  | true => simpa using fits

/-- A number is read from its digits, if it fits. -/
theorem readUnsigned_toDigits (ends : EndsNumber rest) (negative : Bool) (magnitude : Nat)
    (fits : if negative then 0 < magnitude ∧ Int64.minValue.toInt ≤ -(magnitude : Int)
      else magnitude < UInt64.size) :
    readUnsigned negative (Nat.toDigits 10 magnitude ++ rest) =
      some (.integer (if negative then -(magnitude : Int) else magnitude), rest) := by
  have decimal : ∀ char ∈ Nat.toDigits 10 magnitude, char.isDigit = true :=
    fun char => Nat.isDigit_of_mem_toDigits (by omega) (by omega)
  have number := numberOf?_whole (decimalValue_toDigits magnitude) fits
  rw [readUnsigned, ends.readDigits decimal]
  split
  · rename_i nothing
    exact absurd (List.map_eq_nil_iff.mp (Prod.mk.inj nothing).1) Nat.toDigits_ne_nil
  · rename_i padded
    exact absurd (Prod.mk.inj padded).1 (toDigits_not_padded magnitude _ _)
  · rename_i same
    obtain ⟨rfl, rfl⟩ := Prod.mk.inj same
    simp [ends.readFraction, ends.readExponent, number]

theorem exists_digit (magnitude : Nat) : ∃ char others,
    Nat.toDigits 10 magnitude = char :: others ∧ char.isDigit = true := by
  obtain ⟨digit, others, written, small, -⟩ := exists_toDigits magnitude
  exact ⟨digit.digitChar, others, written, by simpa [Nat.isDigit_digitChar] using small⟩

theorem toList_toString (number : Int) : (toString number).toList =
    if 0 ≤ number then Nat.toDigits 10 number.toNat
    else '-' :: Nat.toDigits 10 (-number).toNat := by
  rw [Int.toString_eq_repr, Int.repr_eq_if]
  split
  · exact Nat.toList_repr
  · rw [String.toList_append, Nat.toList_repr]
    rfl

/-- No digit is escaped. -/
theorem escaped_eq_false {char : Char} (digit : char.isDigit = true) : escaped char = false := by
  have range : 48 ≤ char.toNat := by
    simp only [Char.isDigit, Bool.and_eq_true, decide_eq_true_eq] at digit
    exact digit.1
  rw [Bool.eq_false_iff]
  intro needed
  have special : (char = '"' ∨ char = '\\') ∨ char.toNat < 0x20 := by simpa [escaped] using needed
  rcases special with (rfl | rfl) | control
  · cases digit
  · cases digit
  · omega

/-- The decimal text of an integer has no escapes. -/
theorem plainFront_toString (number : Int) :
    plainFront (toString number) = (toString number).toList := by
  have plain : ∀ char ∈ (toString number).toList, escaped char = false := by
    have digits (magnitude : Nat) : ∀ char ∈ Nat.toDigits 10 magnitude, escaped char = false :=
      fun char member => escaped_eq_false (Nat.isDigit_of_mem_toDigits (by omega) (by omega) member)
    rw [toList_toString]
    split
    · exact digits _
    · exact List.forall_mem_cons.mpr ⟨rfl, digits _⟩
  rw [plainFront, List.takeWhile_eq_self_iff]
  intro char member
  rw [plain char member]
  rfl

/-- An integer is read from its decimal text. -/
theorem readNumber_toString (ends : EndsNumber rest) {number : Int}
    (least : Int64.minValue.toInt ≤ number) (most : number < UInt64.size) :
    readNumber ((toString number).toList ++ rest) = some (.integer number, rest) := by
  rw [toList_toString]
  split
  · rename_i natural
    have magnitude : (number.toNat : Int) = number := Int.toNat_of_nonneg natural
    have fits : number.toNat < UInt64.size := by omega
    have read := readUnsigned_toDigits ends false number.toNat (by simpa using fits)
    obtain ⟨char, others, written, digit⟩ := exists_digit number.toNat
    rw [written, List.cons_append] at read ⊢
    rw [readNumber, read, if_neg Bool.false_ne_true, magnitude]
    rintro _ ⟨⟩
    cases digit
  · rename_i negative
    have magnitude : ((-number).toNat : Int) = -number := Int.toNat_of_nonneg (by omega)
    have read := readUnsigned_toDigits ends true (-number).toNat (by
      rw [if_pos rfl, magnitude, Int.neg_neg]
      exact ⟨by omega, least⟩)
    rw [List.cons_append, readNumber, read, magnitude, if_pos rfl, Int.neg_neg]

/-- A minus sign or a digit starts a number. -/
theorem tokensWithin_number (steps : Nat) {char : Char} {others : List Char} {number : Number}
    (starts : char = '-' ∨ char.isDigit = true)
    (read : readNumber (char :: others) = some (number, rest)) :
    tokensWithin (steps + 1) (char :: others) = .number number :: tokensWithin steps rest := by
  rw [tokensWithin, read]
  -- neither a minus sign nor a digit is one of the characters that are looked for before
  all_goals
    rintro rfl
    revert starts
    decide

/-- An integer is scanned as one token, if nothing that follows belongs to it. -/
theorem Scans.number (scans : Scans rest scanned) (ends : EndsNumber rest) {number : Int}
    (least : Int64.minValue.toInt ≤ number) (most : number < UInt64.size) :
    Scans ((toString number).toList ++ rest) (.number (.integer number) :: scanned) := by
  have read := readNumber_toString ends least most
  obtain ⟨char, others, written, starts⟩ : ∃ char others,
      (toString number).toList = char :: others ∧ (char = '-' ∨ char.isDigit = true) := by
    rw [toList_toString]
    split
    · obtain ⟨char, others, written, digit⟩ := exists_digit number.toNat
      exact ⟨char, others, written, .inr digit⟩
    · exact ⟨'-', _, rfl, .inl rfl⟩
  rw [written, List.cons_append] at read ⊢
  refine scans.step ?_ fun steps => ?_
  · rw [List.length_cons, List.length_append]
    omega
  · exact tokensWithin_number steps starts read

end Numbers

end HashTrie.Json
