import HashTrie.Json.Basic
import HashTrie.SipHash
import HashTrie.Text.Layout
import HashTrie.Text.Quoted

/-!
# Keys of a script

Keys are integers, texts and keys with a hash of their own choosing. The last kind
bears a label that equality, hash and order ignore, so that two equal keys can be
told apart by looking at them.
-/

namespace HashTrie.Script

/-- A key. -/
inductive Key where
  | int (value : Int64)
  | text (value : String)
  | custom (word : UInt64) (id : Int64) (label : String)
deriving Inhabited

namespace Key

/-- Keys are equal if they are of one kind and agree in everything but the label. -/
protected def beq : Key → Key → Bool
  | .int value, .int other => value == other
  | .text value, .text other => value == other
  | .custom word id _, .custom otherWord otherId _ => word == otherWord && id == otherId
  | _, _ => false

instance : BEq Key := ⟨Key.beq⟩

theorem beq_def (key other : Key) : (key == other) = key.beq other := rfl

/-- A key without its label. -/
def unlabelled : Key → Key
  | .custom word id _ => .custom word id ""
  | key => key

/-- Keys are equal exactly if they are the same but for the label. -/
theorem beq_iff_unlabelled {key other : Key} :
    (key == other) = true ↔ key.unlabelled = other.unlabelled := by
  cases key <;> cases other <;> simp [beq_def, Key.beq, unlabelled]

instance : EquivBEq Key where
  rfl := beq_iff_unlabelled.mpr rfl
  symm equal := beq_iff_unlabelled.mpr (beq_iff_unlabelled.mp equal).symm
  trans first second :=
    beq_iff_unlabelled.mpr ((beq_iff_unlabelled.mp first).trans (beq_iff_unlabelled.mp second))

/-- The bytes that are hashed: eight bytes of a number, or the encoding of a text
and a byte that no encoding contains. -/
def bytes : Key → List UInt8
  | .int value => SipHash.bytesOfWord value.toUInt64
  | .text value => value.toUTF8.toList ++ [0xff]
  | .custom word _ _ => SipHash.bytesOfWord word

instance : Hashable Key := ⟨fun key => SipHash.hashBytes key.bytes⟩

theorem bytes_unlabelled (key : Key) : key.unlabelled.bytes = key.bytes := by
  cases key <;> rfl

instance : LawfulHashable Key where
  hash_eq key other equal := by
    change SipHash.hashBytes key.bytes = SipHash.hashBytes other.bytes
    rw [← bytes_unlabelled key, ← bytes_unlabelled other, beq_iff_unlabelled.mp equal]

/-- Integers come first, then texts, then the other keys. Texts are ordered by
character, which is the order of their encodings. -/
protected def compare : Key → Key → Ordering
  | .int value, .int other => Ord.compare value other
  | .int _, _ => .lt
  | .text _, .int _ => .gt
  | .text value, .text other => Ord.compare value other
  | .text _, .custom .. => .lt
  | .custom word id _, .custom otherWord otherId _ =>
      (Ord.compare word otherWord).then (Ord.compare id otherId)
  | .custom .., _ => .gt

instance : Ord Key := ⟨Key.compare⟩

instance : Std.LawfulBEqOrd Key where
  compare_eq_iff_beq := by
    intro key other
    change key.compare other = .eq ↔ _
    cases key <;> cases other <;> simp [Key.compare, beq_def, Key.beq]

/-- The number that stands for a key in arithmetic. -/
def num : Key → Int64
  | .int value => value
  | .text value => .ofNat value.utf8ByteSize
  | .custom _ id _ => id

/-- A key in JSON. -/
def toJson : Key → Json
  | .int value => .int value.toInt
  | .text value => .str value
  | .custom word id label =>
      .obj [("h", .ofNat word.toNat), ("id", .int id.toInt), ("t", .str label)]

/-- The key that a JSON value writes. A label that is left out is empty. -/
def ofJson? : Json → Option Key
  | .str value => some (.text value)
  | .obj fields => do
      let word ← ((Json.obj fields).field? "h").bind Json.word?
      let id ← ((Json.obj fields).field? "id").bind Json.int64?
      let label ← ((Json.obj fields).field? "t").elim (some "") Json.str?
      return .custom word id label
  | json => json.int64?.map .int

/-- A key written out for reading. -/
def layout : Key → Text.Layout
  | .int value => .atom (toString value.toInt)
  | .text value => .atom (Text.quoted value)
  | .custom word id label =>
      .atom ("#" ++ toString word.toNat ++ ":" ++ toString id.toInt ++ ":" ++ label)

end Key

end HashTrie.Script
