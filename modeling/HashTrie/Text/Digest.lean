import HashTrie.Text.Hex

/-!
# Text digests

The 64-bit FNV-1a digest of a text, which stands for parts of an answer that are
too long to be written out.
-/

namespace HashTrie.Text

/-- Take one byte into a digest: combine it with the lowest eight bits, then
multiply by the prime of the scheme. -/
def digestStep (state : UInt64) (byte : UInt8) : UInt64 :=
  (state ^^^ byte.toUInt64) * 0x100000001b3

/-- The digest of the bytes that encode a text, in hexadecimal. -/
def digest (text : String) : String :=
  hexWord (text.toUTF8.foldl digestStep 0xcbf29ce484222325)

end HashTrie.Text
