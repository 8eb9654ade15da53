import HashTrie.Proofs.WellFormed
import HashTrie.Trie.Insert

/-!
# Writing an entry

Writing under a key keeps a trie well-formed and changes the run of one hash, the
one of the key, in the way in which a run is written to (`Written`,
`upsert_wellFormed`). The step that is not a walk down is the separation of two
leaves by a chain of branches (`join_wellFormed`), which ends because different
hashes differ in one of their digits.
-/

namespace HashTrie

variable {κ ν : Type} [BEq κ] [Hashable κ]

/-- What writing under a key makes of some entries: the run of the hash of the key
is written to, every other run stays, and the flag tells whether there is one more
entry. -/
structure Written (key : κ) (resolve : Option ν → ν) (before after : List (κ × ν))
    (added : Bool) : Prop where
  run : runOf (hash key) after = ((runOf (hash key) before).upsert key resolve).1
  others : ∀ code, code ≠ hash key → runOf code after = runOf code before
  flag : added = ((runOf (hash key) before).upsert key resolve).2
  length : after.length = before.length + if added then 1 else 0

/-- Every hash that occurs after writing is the one written or occurred before. -/
theorem Written.hash_mem {key : κ} {resolve : Option ν → ν} {before after : List (κ × ν)}
    {added : Bool} (written : Written key resolve before after added) {entry : κ × ν}
    (member : entry ∈ after) : hash entry.1 = hash key ∨ entry ∈ before := by
  by_cases same : hash entry.1 = hash key
  · exact .inl same
  · rw [mem_iff_mem_runOf, written.others _ same] at member
    exact .inr (mem_iff_mem_runOf.mpr member)

/-- An entry with a new hash, put anywhere beside entries of other hashes. -/
theorem Written.of_new {key : κ} {resolve : Option ν → ν} {before : List (κ × ν)}
    (first second : List (κ × ν)) (split : before = first ++ second)
    (new : ∀ entry ∈ before, hash entry.1 ≠ hash key) :
    Written key resolve before (first ++ (key, resolve none) :: second) true := by
  subst split
  have noneFirst : runOf (hash key) first = [] :=
    runOf_eq_nil_iff.mpr fun entry member => new entry (List.mem_append_left _ member)
  have noneSecond : runOf (hash key) second = [] :=
    runOf_eq_nil_iff.mpr fun entry member => new entry (List.mem_append_right _ member)
  refine ⟨?_, ?_, ?_, ?_⟩
  · have here : hash (key, resolve none).1 = hash key := rfl
    rw [runOf_append, runOf_append, runOf_cons_of_eq here, noneFirst, noneSecond]
    rfl
  · intro code different
    have other : hash (key, resolve none).1 ≠ code := Ne.symm different
    rw [runOf_append, runOf_append, runOf_cons_of_ne other]
  · rw [runOf_append, noneFirst, noneSecond]
    rfl
  · simp only [List.length_append, List.length_cons, if_pos]
    omega

namespace Trie

variable {depth size : Nat} {stamp : Stamp} {bitmap : Bitmap} {children : List (Trie κ ν)}
  {slot : Slot}

omit [BEq κ] [Hashable κ] in
theorem childAt_singleton (child : Trie κ ν) (slot other : Slot) :
    childAt (.singleton slot) [child] other = if other = slot then some child else none := by
  unfold childAt
  rw [Bitmap.contains_singleton, Bitmap.rank_singleton]
  by_cases same : other = slot
  · simp [same]
  · simp [same, Ne.symm same]

/-- A single child in the slot that its entries name. -/
theorem placed_singleton {child : Trie κ ν} (sound : WellFormed (depth + 1) child)
    (routed : ∀ entry ∈ child.toList, digit (hash entry.1) depth = slot) :
    Placed depth (.singleton slot) [child] := by
  refine ⟨(Bitmap.card_singleton slot).symm, ?_, ?_⟩
  · intro other found at_other
    rw [childAt_singleton] at at_other
    split at at_other
    · cases at_other
      exact sound
    · cases at_other
  · intro other entry member
    rw [entriesAt, childAt_singleton] at member
    split at member
    · rename_i same
      rw [same]
      exact routed entry member
    · cases member

end Trie

theorem digitPairs_cons (left right : UInt64) {depth : Nat} (shallow : depth < levels) :
    digitPairs left right depth =
      (digit left depth, digit right depth) :: digitPairs left right (depth + 1) := by
  have more : levels - depth = (levels - (depth + 1)) + 1 := by omega
  rw [digitPairs, more, List.range'_succ, List.map_cons]
  rfl

namespace Trie

omit [BEq κ] [Hashable κ] in
/-- Two nodes in the order of their slots. -/
theorem pair_eq_insertIdx (first second : Slot) (existing incoming : Trie κ ν) :
    (if first < second then [existing, incoming] else [incoming, existing]) =
      [existing].insertIdx ((Bitmap.singleton first).rank second) incoming := by
  rw [Bitmap.rank_singleton]
  split <;> rfl

omit [BEq κ] [Hashable κ] in
/-- While the digits agree, a new branch has a single child. -/
theorem join_cons_of_eq (existing incoming : Trie κ ν) (deeper : List (Slot × Slot)) :
    join stamp existing incoming ((slot, slot) :: deeper) =
      .branch stamp (.singleton slot) (existing.size + incoming.size)
        [join stamp existing incoming deeper] := by
  rw [join, if_pos rfl]

omit [BEq κ] [Hashable κ] in
/-- Where the digits differ, a new branch has the two nodes as its children. -/
theorem join_cons_of_ne {right : Slot} (different : slot ≠ right) (existing incoming : Trie κ ν)
    (deeper : List (Slot × Slot)) :
    join stamp existing incoming ((slot, right) :: deeper) =
      .branch stamp ((Bitmap.singleton slot).insert right) (existing.size + incoming.size)
        ([existing].insertIdx ((Bitmap.singleton slot).rank right) incoming) := by
  rw [join, if_neg different, pair_eq_insertIdx]

/-- Two nodes with entries of one hash each, told apart below a depth down to which
the hashes agree. Whichever comes first, the result lists the entries of both. -/
theorem join_wellFormed (stamp : Stamp) {existing incoming : Trie κ ν} {left right : UInt64}
    {depth : Nat} (different : left ≠ right) (same : Agree (digit left) (digit right) depth)
    (existingSound : ∀ level, WellFormed level existing)
    (incomingSound : ∀ level, WellFormed level incoming)
    (existingHashed : ∀ entry ∈ existing.toList, hash entry.1 = left)
    (incomingHashed : ∀ entry ∈ incoming.toList, hash entry.1 = right) :
    let joined := join stamp existing incoming (digitPairs left right depth)
    WellFormed depth joined ∧ joined.isLeaf = false ∧
      (joined.toList = existing.toList ++ incoming.toList ∨
        joined.toList = incoming.toList ++ existing.toList) := by
  have shallow := depth_lt_levels different same
  have existingRouted : ∀ entry ∈ existing.toList,
      digit (hash entry.1) depth = digit left depth :=
    fun entry member => by rw [existingHashed entry member]
  have incomingRouted : ∀ entry ∈ incoming.toList,
      digit (hash entry.1) depth = digit right depth :=
    fun entry member => by rw [incomingHashed entry member]
  have sizes : existing.size + incoming.size =
      existing.toList.length + incoming.toList.length := by
    rw [(existingSound 0).size_eq_length, (incomingSound 0).size_eq_length]
  rw [digitPairs_cons left right shallow]
  intro joined
  by_cases here : digit left depth = digit right depth
  · have deeper := join_wellFormed stamp different (Agree.succ_iff.mpr ⟨same, here⟩)
      existingSound incomingSound existingHashed incomingHashed
    obtain ⟨sound, noLeaf, order⟩ := deeper
    have shape : joined = .branch stamp (.singleton (digit left depth))
        (existing.size + incoming.size)
        [join stamp existing incoming (digitPairs left right (depth + 1))] := by
      simp only [joined, ← here]
      exact join_cons_of_eq ..
    have routed : ∀ entry ∈ (join stamp existing incoming
        (digitPairs left right (depth + 1))).toList,
        digit (hash entry.1) depth = digit left depth := by
      intro entry member
      have either : entry ∈ existing.toList ∨ entry ∈ incoming.toList := by
        rcases order with order | order <;> rw [order, List.mem_append] at member
        · exact member
        · exact member.symm
      rcases either with member | member
      · exact existingRouted entry member
      · rw [incomingRouted entry member, here]
    rw [shape]
    refine ⟨(placed_singleton sound routed).wellFormed shallow (by simp) ?_ ?_, rfl, ?_⟩
    · intro child single
      cases single
      exact noLeaf
    · rw [sizes, toLists, toLists, List.append_nil]
      rcases order with order | order <;> rw [order, List.length_append]
      exact Nat.add_comm _ _
    · simpa [toList, toLists] using order
  · have free : (Bitmap.singleton (digit left depth)).contains (digit right depth) = false := by
      simp [Bitmap.contains_singleton, here]
    have single := placed_singleton (existingSound (depth + 1)) existingRouted
    have placed := single.update (replaced_insertIdx single.full free incoming)
      (fun _ same => Option.some.inj same ▸ incomingSound (depth + 1)) incomingRouted
    have shape : joined = .branch stamp
        ((Bitmap.singleton (digit left depth)).insert (digit right depth))
        (existing.size + incoming.size)
        (if digit left depth < digit right depth then [existing, incoming]
          else [incoming, existing]) := by
      rw [pair_eq_insertIdx]
      exact join_cons_of_ne here ..
    rw [← pair_eq_insertIdx] at placed
    rw [shape]
    refine ⟨placed.wellFormed shallow ?_ ?_ ?_, rfl, ?_⟩
    · split <;> simp
    · intro child single
      split at single <;> simp at single
    · rw [sizes]
      split <;> simp [toLists, Nat.add_comm]
    · simp only [toList]
      split <;> simp [toLists]
termination_by levels - depth
decreasing_by omega

section Upsert

variable (stamp : Stamp) (key : κ) (resolve : Option ν → ν) {depth size : Nat} {old : Stamp}
  {code : UInt64} {run : Run κ ν} {bitmap : Bitmap} {children : List (Trie κ ν)}

omit [Hashable κ] in
/-- Writing to the run of a leaf. -/
theorem upsert_leaf_of_eq : upsert stamp key code resolve depth (.leaf old code run) =
    (.leaf stamp code (run.upsert key resolve).1, (run.upsert key resolve).2) := by
  simp [upsert]

omit [Hashable κ] in
/-- Writing beside a leaf of another hash. -/
theorem upsert_leaf_of_ne {other : UInt64} (different : code ≠ other) :
    upsert stamp key other resolve depth (.leaf old code run) =
      (join stamp (.leaf old code run) (.leaf stamp other [(key, resolve none)])
        (digitPairs code other depth), true) := by
  simp [upsert, different]

omit [Hashable κ] in
/-- Writing below an occupied slot. -/
theorem upsert_branch_of_childAt {child : Trie κ ν} (full : children.length = bitmap.card)
    (found : childAt bitmap children (digit code depth) = some child) :
    upsert stamp key code resolve depth (.branch old bitmap size children) =
      (.branch stamp bitmap
        (if (upsert stamp key code resolve (depth + 1) child).2 then size + 1 else size)
        (children.set (bitmap.rank (digit code depth))
          (upsert stamp key code resolve (depth + 1) child).1),
        (upsert stamp key code resolve (depth + 1) child).2) := by
  obtain ⟨inside, here⟩ := getElem_rank_of_childAt full found
  simp only [upsert, contains_of_childAt found, if_true,
    upsertChild_eq stamp key code resolve depth children _ inside, here]

omit [Hashable κ] in
/-- Writing into a free slot. -/
theorem upsert_branch_of_free (free : bitmap.contains (digit code depth) = false) :
    upsert stamp key code resolve depth (.branch old bitmap size children) =
      (.branch stamp (bitmap.insert (digit code depth)) (size + 1)
        (children.insertIdx (bitmap.rank (digit code depth))
          (.leaf stamp code [(key, resolve none)])), true) := by
  simp [upsert, free]

omit [Hashable κ] in
/-- Writing turns no branch into a leaf. -/
theorem isLeaf_upsert {trie : Trie κ ν} (nonempty : trie.isEmpty = false)
    (noLeaf : trie.isLeaf = false) :
    (trie.upsert stamp key code resolve depth).1.isLeaf = false := by
  cases trie with
  | empty => cases nonempty
  | leaf => cases noLeaf
  | branch old bitmap size children =>
      rw [upsert]
      split <;> rfl

theorem wellFormed_singleton (depth : Nat) (value : ν) :
    WellFormed depth (.leaf stamp (hash key) [(key, value)]) :=
  .leaf (by simp) (List.pairwise_singleton _ _) (by simp)

variable {stamp key resolve}

/-- What is written in the slot of a key is written below the branch. -/
theorem Placed.written_update {replacement : Option (Trie κ ν)} {bitmapAfter : Bitmap}
    {childrenAfter : List (Trie κ ν)} {added : Bool} (placed : Placed depth bitmap children)
    (after : Placed depth bitmapAfter childrenAfter)
    (replaced : Replaced (digit (hash key) depth) replacement bitmap children bitmapAfter
      childrenAfter)
    (written : Written key resolve (entriesAt bitmap children (digit (hash key) depth))
      (replacement.elim [] toList) added) :
    Written key resolve (toLists children) (toLists childrenAfter) added := by
  refine ⟨?_, ?_, ?_, ?_⟩
  · rw [after.runOf_replacement replaced, placed.runOf_toLists]
    exact written.run
  · intro code different
    exact placed.runOf_kept after replaced (written.others code different)
  · rw [placed.runOf_toLists]
    exact written.flag
  · have lengths := replaced.length
    have grown := written.length
    omega

/-- Writing into a leaf: its run is written to in place, or the leaf and a new one
are told apart. -/
theorem upsert_leaf_wellFormed [EquivBEq κ] (inhabited : run ≠ []) (distinct : run.Distinct)
    (hashed : ∀ entry ∈ run, hash entry.1 = code) (under : Under (digit (hash key)) depth run) :
    WellFormed depth (upsert stamp key (hash key) resolve depth (.leaf old code run)).1 ∧
      Written key resolve run
        (upsert stamp key (hash key) resolve depth (.leaf old code run)).1.toList
        (upsert stamp key (hash key) resolve depth (.leaf old code run)).2 := by
  by_cases same : code = hash key
  · subst same
    have hashedAfter : ∀ entry ∈ (run.upsert key resolve).1, hash entry.1 = hash key := by
      intro entry member
      rcases Run.key_mem_of_mem_upsert key resolve member with equal | member
      · rw [equal]
      · exact hashed entry member
    rw [upsert_leaf_of_eq]
    refine ⟨.leaf (Run.upsert_ne_nil key resolve run) (distinct.upsert key resolve)
      hashedAfter, ?_, ?_, ?_, ?_⟩
    · simp only [toList, runOf_eq_self hashed, runOf_eq_self hashedAfter]
    · intro other different
      simp only [toList, runOf_of_hashed hashed, runOf_of_hashed hashedAfter, if_neg different]
    · simp only [runOf_eq_self hashed]
    · exact Run.length_upsert key resolve run
  · have leafSound : WellFormed depth (.leaf old code run) := .leaf inhabited distinct hashed
    have agree : Agree (digit code) (digit (hash key)) depth := by
      obtain ⟨entry, member⟩ := List.exists_mem_of_ne_nil run inhabited
      rw [← hashed entry member]
      exact under entry member
    have new : ∀ entry ∈ run, hash entry.1 ≠ hash key :=
      fun entry member equal => same (hashed entry member ▸ equal)
    obtain ⟨sound, -, order⟩ := join_wellFormed stamp same agree
      leafSound.leaf_mono (fun level => wellFormed_singleton stamp key level (resolve none))
      hashed (by simp [toList])
    rw [upsert_leaf_of_ne stamp key resolve same]
    refine ⟨sound, ?_⟩
    rcases order with order | order <;> rw [order]
    · exact .of_new run [] (List.append_nil run).symm new
    · exact .of_new [] run rfl new

/-- Writing below the child that the hash of the key leads to. -/
theorem upsert_child_wellFormed (shallow : depth < levels) (placed : Placed depth bitmap children)
    (inhabited : children ≠ []) (collapsed : ∀ child, children = [child] → child.isLeaf = false)
    (counted : size = (toLists children).length) {child : Trie κ ν}
    (found : childAt bitmap children (digit (hash key) depth) = some child)
    (sound : WellFormed (depth + 1) (child.upsert stamp key (hash key) resolve (depth + 1)).1)
    (written : Written key resolve child.toList
      (child.upsert stamp key (hash key) resolve (depth + 1)).1.toList
      (child.upsert stamp key (hash key) resolve (depth + 1)).2) :
    WellFormed depth
        (upsert stamp key (hash key) resolve depth (.branch old bitmap size children)).1 ∧
      Written key resolve (toLists children)
        (upsert stamp key (hash key) resolve depth (.branch old bitmap size children)).1.toList
        (upsert stamp key (hash key) resolve depth (.branch old bitmap size children)).2 := by
  have routed := placed.routed (digit (hash key) depth)
  rw [entriesAt_of_childAt found] at routed
  have replaced := replaced_set placed.full found
    (child.upsert stamp key (hash key) resolve (depth + 1)).1
  have placedAfter := placed.update replaced (fun _ same => Option.some.inj same ▸ sound)
    (fun entry member =>
      (written.hash_mem member).elim (fun same => by rw [same]) (routed entry))
  have writtenAfter := placed.written_update placedAfter replaced
    (entriesAt_of_childAt found ▸ written)
  rw [upsert_branch_of_childAt stamp key resolve placed.full found]
  refine ⟨placedAfter.wellFormed shallow ?_ ?_ ?_, writtenAfter⟩
  · simpa using inhabited
  · intro single alone
    obtain ⟨only, rfl⟩ := alone_of_set placed.full found alone
    exact isLeaf_upsert stamp key resolve (placed.sound _ child found).isEmpty_eq_false
      (collapsed child only)
  · rw [writtenAfter.length, ← counted]
    split <;> rfl

/-- Writing into the free slot that the hash of the key leads to. -/
theorem upsert_slot_wellFormed (shallow : depth < levels) (placed : Placed depth bitmap children)
    (inhabited : children ≠ []) (counted : size = (toLists children).length)
    (missing : childAt bitmap children (digit (hash key) depth) = none) :
    WellFormed depth
        (upsert stamp key (hash key) resolve depth (.branch old bitmap size children)).1 ∧
      Written key resolve (toLists children)
        (upsert stamp key (hash key) resolve depth (.branch old bitmap size children)).1.toList
        (upsert stamp key (hash key) resolve depth (.branch old bitmap size children)).2 := by
  have free := free_of_childAt placed.full missing
  have replaced := replaced_insertIdx placed.full free
    (.leaf stamp (hash key) [(key, resolve none)])
  have placedAfter := placed.update replaced
    (fun _ same => Option.some.inj same ▸
      wellFormed_singleton stamp key (depth + 1) (resolve none)) (by simp [toList])
  have written : Written key resolve (entriesAt bitmap children (digit (hash key) depth))
      [(key, resolve none)] true := by
    rw [entriesAt, missing]
    exact .of_new [] [] rfl (by simp)
  have writtenAfter := placed.written_update placedAfter replaced written
  have grown := List.length_insertIdx_of_le_length
    (placed.full ▸ Bitmap.rank_le_card bitmap (digit (hash key) depth))
    (Trie.leaf stamp (hash key) [(key, resolve none)])
  have some : 0 < children.length := List.length_pos_iff.mpr inhabited
  rw [upsert_branch_of_free stamp key resolve free]
  refine ⟨placedAfter.wellFormed shallow ?_ ?_ ?_, writtenAfter⟩
  · exact List.ne_nil_of_length_pos (by omega)
  · intro single alone
    rw [alone, List.length_singleton] at grown
    omega
  · rw [writtenAfter.length, ← counted]
    rfl

/-- **Writing.** Writing under a key keeps a trie well-formed that may hold the key
at this depth, and it writes to the run of the hash of the key. -/
theorem upsert_wellFormed [EquivBEq κ] (stamp : Stamp) (resolve : Option ν → ν)
    {trie : Trie κ ν} (wellFormed : WellFormed depth trie)
    (under : Under (digit (hash key)) depth trie.toList) :
    WellFormed depth (trie.upsert stamp key (hash key) resolve depth).1 ∧
      Written key resolve trie.toList (trie.upsert stamp key (hash key) resolve depth).1.toList
        (trie.upsert stamp key (hash key) resolve depth).2 := by
  induction wellFormed with
  | leaf inhabited distinct hashed =>
      exact upsert_leaf_wellFormed inhabited distinct hashed under
  | @branch depth _ bitmap _ children shallow full inhabited sound routed collapsed counted ih =>
      have placed := Placed.of_children full sound routed
      cases found : childAt bitmap children (digit (hash key) depth) with
      | none => exact upsert_slot_wellFormed shallow placed inhabited counted found
      | some child =>
          have underChild := placed.under_entriesAt under
            (Agree.refl (digit (hash key)) depth)
          rw [entriesAt_of_childAt found] at underChild
          obtain ⟨soundAfter, written⟩ := ih child
            ((mem_iff_childAt full).mpr ⟨_, found⟩) underChild
          exact upsert_child_wellFormed shallow placed inhabited collapsed counted found
            soundAfter written

end Upsert

end Trie

end HashTrie
