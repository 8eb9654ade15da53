import HashTrie.Proofs.CanonicalForm
import HashTrie.Proofs.Sharing
import HashTrie.Script.Key

/-!
# Merging is local to a hash

What a merge makes of the entries of one hash does not depend on the other hashes, up to
the order of the entries (`merge_local`): two merges whose operands have the same runs of a
hash give this hash the same keys with the same values. The other hashes decide how deep
the leaves of the two runs stand, and with that which run takes in the other. This shows in
the order of the merged run and, where values are resolved, in which of two equal keys is
stored (`merge_order_not_local`); nothing else of them shows.
-/

namespace HashTrie

variable {κ ν : Type} [BEq κ]

namespace Run

variable [EquivBEq κ] {first second : Run κ ν}

theorem Distinct.nodup (distinct : first.Distinct) : first.Nodup := by
  refine distinct.imp ?_
  rintro entry _ unequal rfl
  rw [BEq.rfl] at unequal
  cases unequal

/-- Runs without duplicate keys in which each key has the same entry. -/
theorem perm_of_find? (distinct : first.Distinct) (otherDistinct : second.Distinct)
    (same : ∀ key, first.find? key = second.find? key) : first.Perm second := by
  refine (List.perm_ext_iff_of_nodup distinct.nodup otherDistinct.nodup).mpr ?_
  intro entry
  constructor
  · intro member
    exact mem_of_find? ((same entry.1).symm.trans (distinct.find?_of_mem member BEq.rfl))
  · intro member
    exact mem_of_find? ((same entry.1).trans (otherDistinct.find?_of_mem member BEq.rfl))

/-- Runs without duplicate keys in which each key has the same value. -/
theorem Rearranged.of_values (distinct : first.Distinct) (otherDistinct : second.Distinct)
    (same : ∀ key, (first.find? key).map Prod.snd = (second.find? key).map Prod.snd) :
    Rearranged SameEntry first second := by
  refine .of_found And.left distinct otherDistinct ?_ ?_
  · intro entry member
    have value := same entry.1
    rw [distinct.find?_of_mem member BEq.rfl] at value
    obtain ⟨other, found, equal⟩ := Option.map_eq_some_iff.mp value.symm
    exact ⟨other, mem_of_find? found, BEq.symm (key_of_find? found), equal.symm⟩
  · intro other member
    have value := same other.1
    rw [otherDistinct.find?_of_mem member BEq.rfl] at value
    obtain ⟨entry, found, equal⟩ := Option.map_eq_some_iff.mp value
    exact ⟨entry, mem_of_find? found, key_of_find? found, equal⟩

variable {left right : Run κ ν}

/-- Either direction gives each key the value that the resolution makes of the two. -/
theorem rearranged_mergeAs (distinct : left.Distinct) (rightDistinct : right.Distinct)
    (resolve : ν → ν → ν) (leftDeeper otherDeeper : Bool) :
    Rearranged SameEntry (mergeAs .descend resolve leftDeeper left right)
      (mergeAs .descend resolve otherDeeper left right) := by
  refine .of_values (distinct.mergeAs rightDistinct _) (distinct.mergeAs rightDistinct _) ?_
  intro key
  rw [(merged_mergeAs leftDeeper left right).find?_map_snd distinct rightDistinct,
    (merged_mergeAs otherDeeper left right).find?_map_snd distinct rightDistinct]

/-- Either direction keeps the entries of the left run. -/
theorem perm_mergeAs (distinct : left.Distinct) (rightDistinct : right.Distinct)
    (leftDeeper otherDeeper : Bool) :
    (mergeAs .reuse (fun value _ => value) leftDeeper left right).Perm
      (mergeAs .reuse (fun value _ => value) otherDeeper left right) := by
  refine perm_of_find? (distinct.mergeAs rightDistinct _) (distinct.mergeAs rightDistinct _) ?_
  intro key
  rw [find?_mergeAs distinct rightDistinct, find?_mergeAs distinct rightDistinct]

end Run

variable [Hashable κ] {pool nextPool : Pool κ} {stamp nextStamp : Stamp} {code : UInt64}
  {left right nextLeft nextRight : TrieMap κ ν}

/-- Two merges write the runs of a hash into one another in the same direction: either the
left leaf stands deeper than the right one in both of them or in neither, or one of the
runs has no entries to write. -/
def SameDirection (code : UInt64) (left right nextLeft nextRight : TrieMap κ ν) : Prop :=
  runOf code left.toList = [] ∨ runOf code right.toList = [] ∨
    (right.leafDepth code < left.leafDepth code ↔
      nextRight.leafDepth code < nextLeft.leafDepth code)

theorem SameDirection.mergeAs_eq {sharing : Trie.Sharing} {resolve : ν → ν → ν}
    (direction : SameDirection code left right nextLeft nextRight)
    (distinct : (runOf code left.toList).Distinct)
    (rightDistinct : (runOf code right.toList).Distinct) :
    Run.mergeAs sharing resolve (decide (right.leafDepth code < left.leafDepth code))
        (runOf code left.toList) (runOf code right.toList) =
      Run.mergeAs sharing resolve (decide (nextRight.leafDepth code < nextLeft.leafDepth code))
        (runOf code left.toList) (runOf code right.toList) := by
  rcases direction with noLeft | noRight | both
  · rw [noLeft, Run.mergeAs_nil_left _ rightDistinct, Run.mergeAs_nil_left _ rightDistinct]
  · rw [noRight, Run.mergeAs_nil_right _ distinct, Run.mergeAs_nil_right _ distinct]
  · simp only [both]

variable [EquivBEq κ]

/-- **Merging is local to a hash, up to order.** Let the left operands of two merges have
the same run of a hash, and the right operands too. Then the merges with a resolution give
this hash the same keys with the same values, and the merges that keep left values give it
the same entries, stored keys included. If the runs are written into one another in the
same direction, the results have the same run: in order, stored keys and values. -/
theorem merge_local (reachable : Reachable pool) (nextReachable : Reachable nextPool)
    (leftHeld : ⟨ν, left⟩ ∈ pool) (rightHeld : ⟨ν, right⟩ ∈ pool)
    (nextLeftHeld : ⟨ν, nextLeft⟩ ∈ nextPool) (nextRightHeld : ⟨ν, nextRight⟩ ∈ nextPool)
    (fresh : Fresh stamp pool) (nextFresh : Fresh nextStamp nextPool)
    (sameLeft : runOf code left.toList = runOf code nextLeft.toList)
    (sameRight : runOf code right.toList = runOf code nextRight.toList) :
    (∀ resolve : ν → ν → ν,
        let run := runOf code (left.mergeWith stamp right resolve).toList
        let nextRun := runOf code (nextLeft.mergeWith nextStamp nextRight resolve).toList
        Run.Rearranged SameEntry run nextRun ∧
          (SameDirection code left right nextLeft nextRight → run = nextRun)) ∧
      let run := runOf code (left.merge stamp right).toList
      let nextRun := runOf code (nextLeft.merge nextStamp nextRight).toList
      run.Perm nextRun ∧ (SameDirection code left right nextLeft nextRight → run = nextRun) := by
  have leftSound := reachable.sound leftHeld
  have rightSound := reachable.sound rightHeld
  have nextLeftSound := nextReachable.sound nextLeftHeld
  have nextRightSound := nextReachable.sound nextRightHeld
  have distinct := leftSound.distinct_runOf code
  have rightDistinct := rightSound.distinct_runOf code
  constructor
  · intro resolve
    rw [leftSound.runOf_mergeWith rightSound (fresh _ leftHeld),
      nextLeftSound.runOf_mergeWith nextRightSound (nextFresh _ nextLeftHeld), ← sameLeft,
      ← sameRight]
    exact ⟨Run.rearranged_mergeAs distinct rightDistinct resolve _ _,
      fun direction => direction.mergeAs_eq distinct rightDistinct⟩
  · have coherent := reachable.coherent leftHeld rightHeld
    have nextCoherent := nextReachable.coherent nextLeftHeld nextRightHeld
    rw [leftSound.runOf_merge rightSound (fresh _ leftHeld) coherent,
      nextLeftSound.runOf_merge nextRightSound (nextFresh _ nextLeftHeld) nextCoherent, ← sameLeft,
      ← sameRight]
    exact ⟨Run.perm_mergeAs distinct rightDistinct _ _,
      fun direction => direction.mergeAs_eq distinct rightDistinct⟩

omit [BEq κ] [Hashable κ] [EquivBEq κ] in
/-- The keys 0 and 2^64 have one hash, and 1 differs from it in the first digit. With the
key 1 in both operands the leaves meet one branch further down and the merged run is the
same; with the key 1 in the left operand only, the run is the other way round. -/
theorem merge_local_of_collisions :
    let twin := 0x10000000000000000
    let left : TrieMap Nat Nat := .ofList (.ofNat 0) [(0, 10)]
    let right : TrieMap Nat Nat := .ofList (.ofNat 1) [(twin, 20)]
    let nextLeft := left.insert (.ofNat 2) 1 30
    let nextRight := right.insert (.ofNat 3) 1 40
    runOf 0 (left.merge (.ofNat 4) right).toList =
        runOf 0 (nextLeft.merge (.ofNat 4) nextRight).toList ∧
      Run.Rearranged SameEntry (runOf 0 (left.mergeWith (.ofNat 4) right (· + ·)).toList)
        (runOf 0 (nextLeft.mergeWith (.ofNat 4) right (· + ·)).toList) ∧
      (left.merge (.ofNat 4) right).toList = [(twin, 20), (0, 10)] ∧
      (nextLeft.merge (.ofNat 4) right).toList = [(0, 10), (twin, 20), (1, 30)] := by
  intro twin left right nextLeft nextRight
  have one : Reachable [⟨Nat, left⟩] := .cons .nil (by decide) (.ofList _)
  have two : Reachable [⟨Nat, right⟩, ⟨Nat, left⟩] := .cons one (by decide) (.ofList _)
  have three : Reachable [⟨Nat, nextLeft⟩, ⟨Nat, right⟩, ⟨Nat, left⟩] :=
    .cons two (by decide) (.insert (.tail _ List.mem_cons_self) 1 30)
  have four : Reachable [⟨Nat, nextRight⟩, ⟨Nat, nextLeft⟩, ⟨Nat, right⟩, ⟨Nat, left⟩] :=
    .cons three (by decide) (.insert (.tail _ List.mem_cons_self) 1 40)
  refine ⟨(merge_local two four (.tail _ List.mem_cons_self) List.mem_cons_self
      (.tail _ List.mem_cons_self) List.mem_cons_self (by decide) (by decide) (by decide)
      (by decide)).2.2 (.inr (.inr (by decide))),
    ((merge_local two three (.tail _ List.mem_cons_self) List.mem_cons_self List.mem_cons_self
      (.tail _ List.mem_cons_self) (by decide) (by decide) (by decide) rfl).1 (· + ·)).1,
    by decide, by decide⟩

omit [BEq κ] [Hashable κ] [EquivBEq κ] in
/-- **The order of a merged run is not local to its hash.** The left operand of the second
merge has one more key, of another hash, and the right operand is the same. Both ways of
merging give the run in the other order, and resolving stores the other one of two equal
keys. -/
theorem merge_order_not_local :
    let left : TrieMap Script.Key Nat := .ofList (.ofNat 0) [(.custom 7 1 "a", 1)]
    let right : TrieMap Script.Key Nat :=
      .ofList (.ofNat 1) [(.custom 7 2 "b", 2), (.custom 7 1 "c", 3)]
    let nextLeft := left.insert (.ofNat 2) (.int 0) 4
    let pool : Pool Script.Key := [⟨Nat, nextLeft⟩, ⟨Nat, right⟩, ⟨Nat, left⟩]
    let code := hash (Script.Key.custom 7 1 "")
    let plain (map : TrieMap Script.Key Nat) :=
      runOf code (map.mergeWith (.ofNat 3) right fun value _ => value).toList
    let reused (map : TrieMap Script.Key Nat) := runOf code (map.merge (.ofNat 3) right).toList
    (Reachable pool ∧ Fresh (.ofNat 3) pool ∧
      runOf code left.toList = runOf code nextLeft.toList) ∧
    (plain left = [(.custom 7 2 "b", 2), (.custom 7 1 "a", 1)] ∧
      plain nextLeft = [(.custom 7 1 "c", 1), (.custom 7 2 "b", 2)] ∧
      plain left ≠ plain nextLeft) ∧
    reused left = [(.custom 7 2 "b", 2), (.custom 7 1 "a", 1)] ∧
      reused nextLeft = [(.custom 7 1 "a", 1), (.custom 7 2 "b", 2)] ∧
      reused left ≠ reused nextLeft := by
  intro left right nextLeft pool code plain reused
  have one : Reachable [⟨Nat, left⟩] := .cons .nil (by decide +kernel) (.ofList _)
  have two : Reachable [⟨Nat, right⟩, ⟨Nat, left⟩] := .cons one (by decide +kernel) (.ofList _)
  have held : ⟨Nat, left⟩ ∈ ([⟨Nat, right⟩, ⟨Nat, left⟩] : Pool Script.Key) :=
    .tail _ List.mem_cons_self
  have three : Reachable pool := .cons two (by decide +kernel) (.insert held (.int 0) 4)
  have ofLeft : runOf code left.toList = [(.custom 7 1 "a", 1)] := rfl
  have ofNext : runOf code nextLeft.toList = [(.custom 7 1 "a", 1)] := rfl
  have resolved : plain left = [(.custom 7 2 "b", 2), (.custom 7 1 "a", 1)] := rfl
  have nextResolved : plain nextLeft = [(.custom 7 1 "c", 1), (.custom 7 2 "b", 2)] := rfl
  have kept : reused left = [(.custom 7 2 "b", 2), (.custom 7 1 "a", 1)] := rfl
  have nextKept : reused nextLeft = [(.custom 7 1 "a", 1), (.custom 7 2 "b", 2)] := rfl
  refine ⟨⟨three, by decide +kernel, ofLeft.trans ofNext.symm⟩,
    ⟨resolved, nextResolved, ?_⟩, kept, nextKept, ?_⟩
  · rw [resolved, nextResolved]
    intro same
    exact absurd (congrArg (List.map Prod.snd) same) (by decide)
  · rw [kept, nextKept]
    intro same
    exact absurd (congrArg (List.map Prod.snd) same) (by decide)

end HashTrie
