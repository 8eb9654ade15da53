import HashTrie.Proofs.JsonText
import HashTrie.Script.Document

/-!
# Documents hand back what they were given

A decoder reads a value back from its compact text if it takes the tokens of the text, whatever
follows them (`Decoder.Reads`). Numbers and strings are read back, and with them arrays and
objects, item by item and field by field (`reads_list`, `reads_entries`). The formats of the
documents are made of these.
-/

namespace HashTrie.Json

variable {α β κ : Type}

/-- The compact text of a value has certain tokens, the first of which ends no array. -/
structure Spells (json : Json) (front : List Token) : Prop where
  scans : ∀ {rest : List Char} {scanned : List Token}, EndsNumber rest → Scans rest scanned →
    Scans (json.compact.toList ++ rest) (front ++ scanned)
  opens : ∃ token others, front = token :: others ∧ token ≠ .closeList

theorem toList_intercalate_singleton (text : String) :
    (",".intercalate [text]).toList = text.toList := by
  rw [String.toList_intercalate]
  exact List.append_nil _

/-- Joined texts, one after another. -/
theorem toList_intercalate_cons (first next : String) (others : List String) :
    (",".intercalate (first :: next :: others)).toList =
      first.toList ++ ',' :: (",".intercalate (next :: others)).toList := by
  rw [String.toList_intercalate, String.toList_intercalate]
  rfl

namespace Decoder

/-- A decoder takes certain tokens as a value, whatever follows them. -/
def Takes (decoder : Decoder α) (front : List Token) (content : α) : Prop :=
  ∀ tokens rest, tokens = front ++ rest →
    ∃ shorter, decoder tokens = .ok (content, ⟨rest, shorter⟩)

/-- A decoder reads a value back from the JSON that it is written as. -/
def Reads (decoder : Decoder α) (json : Json) (value : α) : Prop :=
  ∃ front, Spells json front ∧ decoder.Takes front value

variable {decoder item value : Decoder α} {json : Json}

theorem Reads.run {content : α} (reads : decoder.Reads json content) :
    decoder.run json.compact = .ok content := by
  obtain ⟨front, spells, takes⟩ := reads
  have scans := spells.scans endsNumber_nil scans_nil
  rw [List.append_nil] at scans
  obtain ⟨shorter, taken⟩ := takes front [] (List.append_nil front).symm
  rw [Decoder.run, tokens_of_scans scans, List.append_nil, whole, taken]
  rfl

theorem Reads.map {content : α} (reads : decoder.Reads json content) (function : α → β) :
    (decoder.map function).Reads json (function content) := by
  obtain ⟨front, spells, takes⟩ := reads
  refine ⟨front, spells, fun tokens rest same => ?_⟩
  obtain ⟨shorter, taken⟩ := takes tokens rest same
  refine ⟨shorter, ?_⟩
  rw [Decoder.map, taken]
  rfl

theorem int64OfNumber_toInt (number : Int64) :
    int64OfNumber (.integer number.toInt) = .ok number := by
  have fits := And.intro number.minValue_le_toInt number.toInt_le
  simp only [int64OfNumber, int64?, if_pos fits, Int64.ofInt_toInt]

theorem reads_int64 (number : Int64) : int64.Reads (.int number.toInt) number := by
  have most : number.toInt < UInt64.size := Int.lt_trans number.toInt_lt (by decide)
  refine ⟨[.number (.integer number.toInt)], ⟨?_, _, _, rfl, nofun⟩, ?_⟩
  · intro rest scanned ends scans
    exact scans.number ends number.minValue_le_toInt most
  · rintro _ rest rfl
    refine ⟨Nat.lt_succ_self _, ?_⟩
    change (int64OfNumber (.integer number.toInt)).map _ = _
    rw [int64OfNumber_toInt]
    rfl

theorem reads_text (content : String) : text.Reads (.str content) content := by
  refine ⟨[stringToken content], ⟨?_, _, _, rfl, nofun⟩, ?_⟩
  · intro rest scanned _ scans
    exact scans.text content
  · rintro _ rest rfl
    exact ⟨Nat.lt_succ_self _, rfl⟩

/-- The items of an array, of which there is one at least, are read back with its end. -/
theorem exists_items {toJson : α → Json} {content : α} {contents : List α}
    (reads : ∀ other ∈ content :: contents, item.Reads (toJson other) other) :
    ∃ token front, token ≠ .closeList ∧
      (∀ {rest scanned}, Scans rest scanned →
        Scans ((",".intercalate (compactItems ((content :: contents).map toJson))).toList ++
          ']' :: rest) (token :: front ++ scanned)) ∧
      Takes (items item) (token :: front) (content :: contents) := by
  induction contents generalizing content with
  | nil =>
      obtain ⟨_, ⟨scans, token, front, rfl, opens⟩, takes⟩ := reads content List.mem_cons_self
      refine ⟨token, front ++ [.closeList], opens, ?_, ?_⟩
      · intro rest scanned after
        rw [List.map_cons, List.map_nil, compactItems, compactItems, toList_intercalate_singleton]
        simpa using scans (endsNumber_cons rest (by decide)) (after.mark ']' rfl)
      · intro tokens rest same
        obtain ⟨shorter, taken⟩ := takes tokens (.closeList :: rest) (by simp [same])
        refine ⟨Nat.lt_of_succ_lt shorter, ?_⟩
        rw [items, taken]
        rfl
  | cons next contents ih =>
      obtain ⟨_, ⟨scans, token, front, rfl, opens⟩, takes⟩ := reads content List.mem_cons_self
      have readsOthers : ∀ other ∈ next :: contents, item.Reads (toJson other) other :=
        fun other member => reads other (.tail _ member)
      -- the comma ends a number, and what follows it is scanned and taken as a shorter array
      obtain ⟨first, others, -, scansOthers, takesOthers⟩ := ih readsOthers
      refine ⟨token, front ++ .comma :: first :: others, opens, ?_, ?_⟩
      · intro rest scanned after
        have joined := scans (endsNumber_cons _ (by decide)) ((scansOthers after).mark ',' rfl)
        rw [List.map_cons, List.map_cons, compactItems, compactItems, toList_intercalate_cons]
        simpa [compactItems] using joined
      · intro tokens rest same
        obtain ⟨shorter, taken⟩ :=
          takes tokens (.comma :: (first :: others ++ rest)) (by simp [same])
        obtain ⟨least, takenOthers⟩ := takesOthers _ rest rfl
        refine ⟨Nat.lt_trans (Nat.lt_succ_of_lt least) shorter, ?_⟩
        rw [items, taken]
        simp only [takenOthers]
        rfl

theorem list_of_opens {token : Token} (opens : token ≠ .closeList) (rest : List Token) :
    list item (.openList :: token :: rest) =
      (items item (token :: rest)).map fun (contents, after) =>
        (contents, after.beyond .openList) := by
  rw [list]
  rintro _ ⟨⟩
  exact opens rfl

/-- An array is read back if its items are. -/
theorem reads_list {toJson : α → Json} {contents : List α}
    (reads : ∀ content ∈ contents, item.Reads (toJson content) content) :
    (list item).Reads (.arr (contents.map toJson)) contents := by
  cases contents with
  | nil =>
      refine ⟨[.openList, .closeList], ⟨?_, _, _, rfl, nofun⟩, ?_⟩
      · intro rest scanned _ after
        simpa [compact, compactItems] using (after.mark ']' rfl).mark '[' rfl
      · rintro _ rest rfl
        exact ⟨Nat.lt_succ_of_lt (Nat.lt_succ_self _), rfl⟩
  | cons content contents =>
      obtain ⟨token, front, opens, scans, takes⟩ := exists_items reads
      refine ⟨.openList :: token :: front, ⟨?_, _, _, rfl, nofun⟩, ?_⟩
      · intro rest scanned _ after
        simpa [compact] using (scans after).mark '[' rfl
      · rintro _ rest rfl
        obtain ⟨shorter, taken⟩ := takes (token :: (front ++ rest)) rest rfl
        refine ⟨Nat.lt_succ_of_lt shorter, (list_of_opens opens (front ++ rest)).trans ?_⟩
        rw [taken]
        rfl

section Objects

variable {key : Token → Except DecodeError κ} {nameOf : κ → String} {toJson : α → Json}

/-- The fields of an object, of which there is one at least, are read back with its end. -/
theorem exists_fields {entry : κ × α} {entries : List (κ × α)}
    (known : ∀ label, key (stringToken (nameOf label)) = .ok label)
    (reads : ∀ other ∈ entry :: entries, value.Reads (toJson other.2) other.2) :
    ∃ front, (∀ {rest scanned}, Scans rest scanned →
        Scans ((",".intercalate (compactFields ((entry :: entries).map fun entry =>
          (nameOf entry.1, toJson entry.2)))).toList ++ '\x7d' :: rest)
          (stringToken (nameOf entry.1) :: front ++ scanned)) ∧
      Takes (fields key value) (stringToken (nameOf entry.1) :: front)
        (entry :: entries) := by
  induction entries generalizing entry with
  | nil =>
      obtain ⟨front, ⟨scans, -⟩, takes⟩ := reads entry List.mem_cons_self
      refine ⟨.colon :: front ++ [.closeMap], ?_, ?_⟩
      · intro rest scanned after
        have content := scans (endsNumber_cons rest (by decide)) (after.mark '\x7d' rfl)
        have field := (content.mark ':' rfl).text (nameOf entry.1)
        rw [List.map_cons, List.map_nil, compactFields, compactFields,
          toList_intercalate_singleton]
        simpa using field
      · intro tokens rest same
        obtain rfl : tokens = stringToken (nameOf entry.1) ::
            .colon :: (front ++ .closeMap :: rest) := by simpa using same
        obtain ⟨shorter, taken⟩ := takes _ (.closeMap :: rest) rfl
        refine ⟨Nat.lt_add_right 2 (Nat.lt_of_succ_lt shorter), ?_⟩
        simp only [fields, known, taken]
        rfl
  | cons next entries ih =>
      obtain ⟨front, ⟨scans, -⟩, takes⟩ := reads entry List.mem_cons_self
      have readsOthers : ∀ other ∈ next :: entries, value.Reads (toJson other.2) other.2 :=
        fun other member => reads other (.tail _ member)
      obtain ⟨others, scansOthers, takesOthers⟩ := ih readsOthers
      refine ⟨.colon :: front ++
        .comma :: stringToken (nameOf next.1) :: others, ?_, ?_⟩
      · intro rest scanned after
        have content := scans (endsNumber_cons _ (by decide)) ((scansOthers after).mark ',' rfl)
        have field := (content.mark ':' rfl).text (nameOf entry.1)
        rw [List.map_cons, List.map_cons, compactFields, compactFields, toList_intercalate_cons]
        simpa [compactFields] using field
      · intro tokens rest same
        obtain rfl : tokens = stringToken (nameOf entry.1) ::
            .colon :: (front ++ .comma :: (stringToken (nameOf next.1) ::
              others ++ rest)) := by simpa using same
        obtain ⟨shorter, taken⟩ := takes _ (.comma :: _) rfl
        obtain ⟨least, takenOthers⟩ := takesOthers _ rest rfl
        refine ⟨Nat.lt_add_right 2 (Nat.lt_trans (Nat.lt_succ_of_lt least) shorter), ?_⟩
        rw [fields]
        simp only [known, taken, takenOthers]
        rfl

/-- An object is read back if its values are, and its names by themselves. -/
theorem reads_entries {entries : List (κ × α)}
    (known : ∀ label, key (stringToken (nameOf label)) = .ok label)
    (reads : ∀ entry ∈ entries, value.Reads (toJson entry.2) entry.2) :
    (Decoder.entries key value).Reads
      (.obj (entries.map fun entry => (nameOf entry.1, toJson entry.2))) entries := by
  cases entries with
  | nil =>
      refine ⟨[.openMap, .closeMap], ⟨?_, _, _, rfl, nofun⟩, ?_⟩
      · intro rest scanned _ after
        simpa [compact, compactFields] using (after.mark '\x7d' rfl).mark '\x7b' rfl
      · rintro _ rest rfl
        exact ⟨Nat.lt_succ_of_lt (Nat.lt_succ_self _), rfl⟩
  | cons entry entries =>
      obtain ⟨front, scans, takes⟩ := exists_fields known reads
      refine ⟨.openMap :: stringToken (nameOf entry.1) :: front,
        ⟨?_, _, _, rfl, nofun⟩, ?_⟩
      · intro rest scanned _ after
        simpa [compact] using (scans after).mark '\x7b' rfl
      · rintro _ rest rfl
        obtain ⟨shorter, taken⟩ := takes _ rest rfl
        exact ⟨Nat.lt_succ_of_lt shorter, congrArg (Except.map _) taken⟩

/-- The name that a number is written as is read as the number. -/
theorem int64Key_stringToken (number : Int64) :
    int64Key (stringToken (toString number.toInt)) = .ok number := by
  have most : number.toInt < UInt64.size := Int.lt_trans number.toInt_lt (by decide)
  have read := readNumber_toString endsNumber_nil number.minValue_le_toInt most
  rw [List.append_nil] at read
  rw [stringToken, plainFront_toString, int64Key, String.length_toList, beq_self_eq_true,
    leadingInt64, read]
  change (do
    let value ← int64OfNumber (.integer number.toInt)
    if true && List.isEmpty [] then .ok value else .error .malformed) = _
  rw [int64OfNumber_toInt]
  rfl

end Objects

end Decoder

end HashTrie.Json

namespace HashTrie.Script.Document

open Json Json.Decoder

theorem reads_textEntries {ν : Type} {value : Decoder ν} {toJson : ν → Json}
    (reads : ∀ content, value.Reads (toJson content) content) (entries : List (String × ν)) :
    (textEntries value).Reads
      (objectJson toJson (entries.map fun entry => (.text entry.1, entry.2)))
      (entries.map fun entry => (.text entry.1, entry.2)) := by
  have known (label : String) : textKey (stringToken label) = .ok label := rfl
  have fields : (Decoder.entries textKey value).Reads _ entries :=
    reads_entries known fun entry _ => reads entry.2
  rw [objectJson, List.map_map]
  exact fields.map fun entries => entries.map fun entry => (Key.text entry.1, entry.2)

theorem reads_intEntries {ν : Type} {value : Decoder ν} {toJson : ν → Json}
    (reads : ∀ content, value.Reads (toJson content) content) (entries : List (Int64 × ν)) :
    (intEntries value).Reads
      (objectJson toJson (entries.map fun entry => (.int entry.1, entry.2)))
      (entries.map fun entry => (.int entry.1, entry.2)) := by
  have fields : (Decoder.entries int64Key value).Reads _ entries :=
    reads_entries int64Key_stringToken fun entry _ => reads entry.2
  rw [objectJson, List.map_map]
  exact fields.map fun entries => entries.map fun entry => (Key.int entry.1, entry.2)

theorem reads_numbers (numbers : List Int64) :
    (Decoder.list Decoder.int64).Reads (.arr (numbers.map numberJson)) numbers :=
  reads_list fun number _ => reads_int64 number

theorem reads_texts (texts : List String) :
    ((Decoder.list Decoder.text).map fun texts => texts.map Key.text).Reads
      (.arr ((texts.map Key.text).map Key.toJson)) (texts.map Key.text) := by
  have items : (Decoder.list Decoder.text).Reads (.arr (texts.map .str)) texts :=
    reads_list fun content _ => reads_text content
  rw [List.map_map]
  exact items.map fun texts => texts.map Key.text

theorem reads_ints (numbers : List Int64) :
    ((Decoder.list Decoder.int64).map fun numbers => numbers.map Key.int).Reads
      (.arr ((numbers.map Key.int).map Key.toJson)) (numbers.map Key.int) := by
  rw [List.map_map]
  exact (reads_numbers numbers).map fun numbers => numbers.map Key.int

/-- **JSON text hands back what it was given.** Objects hand back their names, read as texts or
as numbers, with the values, which may be numbers, texts or lists of numbers, in their order and
with all repetitions; and arrays hand back their texts or numbers. -/
theorem documents_handBack :
    (∀ entries : List (String × Int64),
        textToIntFormat.HandsBack (entries.map fun entry => (.text entry.1, entry.2))) ∧
      (∀ entries : List (Int64 × String),
        intToTextFormat.HandsBack (entries.map fun entry => (.int entry.1, entry.2))) ∧
      (∀ entries : List (String × List Int64),
        textToListFormat.HandsBack (entries.map fun entry => (.text entry.1, entry.2))) ∧
      (∀ texts : List String, textSetFormat.HandsBack (texts.map .text)) ∧
      ∀ numbers : List Int64, intSetFormat.HandsBack (numbers.map .int) := by
  refine ⟨?_, ?_, ?_, ?_, ?_⟩
  · intro entries
    exact (reads_textEntries reads_int64 entries).run
  · intro entries
    exact (reads_intEntries reads_text entries).run
  · intro entries
    exact (reads_textEntries reads_numbers entries).run
  · intro texts
    exact (reads_texts texts).run
  · intro numbers
    exact (reads_ints numbers).run

end HashTrie.Script.Document
