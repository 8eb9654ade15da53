import HashTrie.Proofs.Cursors
import HashTrie.Proofs.MergeOrder

/-!
# Reusing shared nodes

A merge that keeps left values may reuse what the two maps share and leave out keys that
the left map holds, and a merge with that resolution goes down everywhere and writes every
key again. The results are alike in all that counts (`merge_agrees_mergeWith`): the merged
runs stand in the same order, since the same leaves meet, and they differ at most in which
of two equal keys is stored, where the plain merge writes the key of the right map.
-/

namespace HashTrie

variable {κ ν : Type} [BEq κ]

/-- Two entries have equal keys and one value. -/
def SameEntry (first second : κ × ν) : Prop := SameKey first second ∧ first.2 = second.2

theorem SameEntry.refl [EquivBEq κ] (entry : κ × ν) : SameEntry entry entry := ⟨BEq.rfl, rfl⟩

namespace Run

variable [EquivBEq κ] {first second : Run κ ν}

/-- An entry that is left out if its key is there, or written in the place of that key. -/
theorem sameEntries_absorbEntry (same : List.Forall₂ SameEntry first second) (entry : κ × ν) :
    List.Forall₂ SameEntry (first.absorbEntry .reuse (fun value _ => value) entry)
      (second.absorbEntry .descend (fun value _ => value) entry) := by
  induction same with
  | nil => exact .cons (.refl entry) .nil
  | @cons stored other first second here rest ih =>
      rw [absorbEntry_cons, absorbEntry_cons, ← BEq.congr_left here.1]
      split
      · rename_i equal
        exact .cons ⟨equal, here.2⟩ rest
      · exact .cons here ih

theorem sameEntries_absorb (same : List.Forall₂ SameEntry first second) (source : Run κ ν) :
    List.Forall₂ SameEntry (first.absorb .reuse (fun value _ => value) source)
      (second.absorb .descend (fun value _ => value) source) := by
  induction source generalizing first second with
  | nil => exact same
  | cons entry source ih => exact ih (sameEntries_absorbEntry same entry)

/-- Whichever run takes in the other, reusing and resolving make the same entries. -/
theorem sameEntries_mergeAs (leftDeeper : Bool) (left right : Run κ ν) :
    List.Forall₂ SameEntry (mergeAs .reuse (fun value _ => value) leftDeeper left right)
      (mergeAs .descend (fun value _ => value) leftDeeper left right) := by
  have refl (run : Run κ ν) : List.Forall₂ SameEntry run run :=
    List.forall₂_same.mpr fun entry _ => .refl entry
  cases leftDeeper with
  | true => exact sameEntries_absorb (refl left) right
  | false => exact refl _

end Run

variable [Hashable κ] [EquivBEq κ]

/-- **Reusing agrees with resolving.** Whatever nodes two maps share, merging them with
reuse and merging them with the resolution that keeps left values gives the same length,
the same shape and the same iteration: equal keys in the same order with the same values.
The merge with reuse also keeps the stored key of every entry of the first map. -/
theorem merge_agrees_mergeWith {pool : Pool κ} {stamp plainStamp : Stamp}
    {map other : TrieMap κ ν} (reachable : Reachable pool) (held : ⟨ν, map⟩ ∈ pool)
    (otherHeld : ⟨ν, other⟩ ∈ pool) (fresh : Fresh stamp pool)
    (plainFresh : Fresh plainStamp pool) :
    let merged := map.merge stamp other
    let plain := map.mergeWith plainStamp other fun value _ => value
    merged.length = plain.length ∧
      merged.root.Alike (List.Forall₂ SameEntry) plain.root ∧
      List.Forall₂ SameEntry merged.cursor.rest plain.cursor.rest ∧
      ∀ key entry, map.getEntry? key = some entry → merged.getEntry? key = some entry := by
  intro merged plain
  have wellFormed := reachable.sound held
  have otherWellFormed := reachable.sound otherHeld
  have sound : merged.WellFormed := wellFormed.merge otherWellFormed (fresh _ held)
  have plainSound : plain.WellFormed :=
    wellFormed.mergeWith otherWellFormed (plainFresh _ held) fun value _ => value
  have coherent := reachable.coherent held otherHeld
  have runs (code : UInt64) :
      List.Forall₂ SameEntry (runOf code merged.toList) (runOf code plain.toList) := by
    rw [wellFormed.runOf_merge otherWellFormed (fresh _ held) coherent,
      wellFormed.runOf_mergeWith otherWellFormed (plainFresh _ held)]
    exact Run.sameEntries_mergeAs _ _ _
  have alike := sound.alike .nil List.Forall₂.length_eq plainSound runs
  have iterated := alike.forall₂_toList
  refine ⟨?_, alike, ?_, ?_⟩
  · rw [sound.length, plainSound.length]
    exact iterated.length_eq
  · rw [TrieMap.cursor, TrieMap.cursor, Trie.Cursor.rest_start, Trie.Cursor.rest_start]
    exact iterated
  · intro key entry found
    rw [wellFormed.getEntry?_merge otherWellFormed (fresh _ held) coherent, found]
    rfl

omit [BEq κ] [Hashable κ] [EquivBEq κ] in
/-- The keys 0 and 2^64 have one hash, 32 differs from it in the second digit and 1 in the
first. The second map is made from the first and shares the node of 1 with it; the run of
the first two keys stands deeper in the first map. -/
theorem merge_agrees_mergeWith_of_collisions :
    let twin := 0x10000000000000000
    let map : TrieMap Nat Nat := .ofList (.ofNat 0) [(0, 1), (32, 2), (1, 3)]
    let other := (map.erase (.ofNat 1) 32).insert (.ofNat 2) twin 4
    let merged := map.merge (.ofNat 3) other
    let plain := map.mergeWith (.ofNat 4) other fun value _ => value
    List.Forall₂ SameEntry merged.cursor.rest plain.cursor.rest ∧
      merged.toList = [(0, 1), (twin, 4), (32, 2), (1, 3)] := by
  intro twin map other merged plain
  have one : Reachable [⟨Nat, map⟩] := .cons .nil (by decide) (.ofList _)
  have two : Reachable [⟨Nat, map.erase (.ofNat 1) 32⟩, ⟨Nat, map⟩] :=
    .cons one (by decide) (.erase List.mem_cons_self 32)
  have three : Reachable [⟨Nat, other⟩, ⟨Nat, map.erase (.ofNat 1) 32⟩, ⟨Nat, map⟩] :=
    .cons two (by decide) (.insert List.mem_cons_self twin 4)
  exact ⟨(merge_agrees_mergeWith three (.tail _ (.tail _ List.mem_cons_self)) List.mem_cons_self
    (by decide) (by decide)).2.2.1, by decide⟩

end HashTrie
