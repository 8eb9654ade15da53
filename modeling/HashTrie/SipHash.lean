/-!
# SipHash

The keyed 64-bit hash of a sequence of bytes in its variant with one round for each
word of eight bytes and three rounds at the end, with both key words zero.
-/

namespace HashTrie.SipHash

/-- The four words that the hash works on. -/
structure State where
  v0 : UInt64
  v1 : UInt64
  v2 : UInt64
  v3 : UInt64

/-- The state before the first word, for two key words of zero. -/
def State.initial : State :=
  ⟨0x736f6d6570736575, 0x646f72616e646f6d, 0x6c7967656e657261, 0x7465646279746573⟩

/-- Rotate a word to the left by less than its width. -/
def rotate (word count : UInt64) : UInt64 := (word <<< count) ||| (word >>> (64 - count))

/-- One round of mixing. -/
def State.round (state : State) : State :=
  let v0 := state.v0 + state.v1
  let v1 := rotate state.v1 13 ^^^ v0
  let v0 := rotate v0 32
  let v2 := state.v2 + state.v3
  let v3 := rotate state.v3 16 ^^^ v2
  let v0 := v0 + v3
  let v3 := rotate v3 21 ^^^ v0
  let v2 := v2 + v1
  let v1 := rotate v1 17 ^^^ v2
  let v2 := rotate v2 32
  ⟨v0, v1, v2, v3⟩

/-- Take in one word. -/
def State.absorb (state : State) (word : UInt64) : State :=
  let mixed := State.round { state with v3 := state.v3 ^^^ word }
  { mixed with v0 := mixed.v0 ^^^ word }

/-- The hash at the end. -/
def State.finish (state : State) : UInt64 :=
  let mixed := State.round (State.round (State.round { state with v2 := state.v2 ^^^ 0xff }))
  mixed.v0 ^^^ mixed.v1 ^^^ mixed.v2 ^^^ mixed.v3

/-- The word of up to eight bytes, the first one lowest. -/
def wordOfBytes (bytes : List UInt8) : UInt64 :=
  bytes.foldr (fun byte word => (word <<< 8) ||| byte.toUInt64) 0

/-- The eight bytes of a word, the lowest first. -/
def bytesOfWord (word : UInt64) : List UInt8 :=
  (List.range 8).map fun index => (word >>> UInt64.ofNat (8 * index)).toUInt8

/-- Take in all whole words of a sequence of bytes. What remains is put into a
last word whose top byte is the total length. -/
def absorbAll (total : Nat) (state : State) : List UInt8 → State
  | b0 :: b1 :: b2 :: b3 :: b4 :: b5 :: b6 :: b7 :: rest =>
      absorbAll total (state.absorb (wordOfBytes [b0, b1, b2, b3, b4, b5, b6, b7])) rest
  | rest => state.absorb (wordOfBytes rest ||| (UInt64.ofNat (total % 256) <<< 56))

/-- The hash of a sequence of bytes. -/
def hashBytes (bytes : List UInt8) : UInt64 :=
  (absorbAll bytes.length .initial bytes).finish

end HashTrie.SipHash
