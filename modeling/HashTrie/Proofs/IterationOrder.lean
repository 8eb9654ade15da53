import HashTrie.Proofs.Cursors
import HashTrie.Proofs.Dictionary

/-!
# The order of iteration

A trie lists its entries in the order of the digits of their hashes, lowest level
first (`WellFormed.inDigitOrder`). That leaves open only how the entries of one hash
stand among themselves, and they stand as in the dictionary of the map. A list in
digit order is determined by its runs (`eq_of_inDigitOrder`), so the iteration is the
stable sort of the dictionary by digit order (`iteration_eq_mergeSort`).
-/

namespace HashTrie

variable {κ ν : Type}

section InPlace

variable [BEq κ]

/-- Entries without duplicate keys: each key stands where it occurs first, as the term
and with the value with which it occurs last. -/
def dedupInPlace : List (κ × ν) → List (κ × ν)
  | [] => []
  | entry :: entries =>
      (entries.filter (·.1 == entry.1)).getLastD entry ::
        (dedupInPlace entries).filter fun other => !other.1 == entry.1

/-- Write entries to a run one after another. -/
def Run.writeAll (entries : List (κ × ν)) (run : Run κ ν) : Run κ ν :=
  entries.foldl (fun run entry => (run.upsert entry.1 fun _ => entry.2).1) run

/-- Of the entries that are written, those with the first key rewrite the first entry,
and the others are written behind it. -/
theorem Run.writeAll_cons [EquivBEq κ] (entry : κ × ν) (run : Run κ ν) (entries : List (κ × ν)) :
    writeAll entries (entry :: run) = (entries.filter (·.1 == entry.1)).getLastD entry ::
      writeAll (entries.filter fun other => !other.1 == entry.1) run := by
  induction entries generalizing entry run with
  | nil => rfl
  | cons next entries ih =>
      cases equal : entry.1 == next.1 with
      | true =>
          have rewritten : writeAll (next :: entries) (entry :: run) =
              writeAll entries (next :: run) :=
            congrArg (writeAll entries)
              (congrArg Prod.fst (upsert_cons_of_eq next.1 (fun _ => next.2) run equal))
          have back : (next.1 == entry.1) = true := BEq.symm equal
          rw [rewritten, ih,
            List.filter_cons_of_pos (p := fun other : κ × ν => other.1 == entry.1) back,
            List.filter_cons_of_neg (by simp [back]), List.getLastD_cons]
          simp only [BEq.congr_right equal]
      | false =>
          have behind : writeAll (next :: entries) (entry :: run) =
              writeAll entries (entry :: (Run.upsert next.1 (fun _ => next.2) run).1) :=
            congrArg (writeAll entries)
              (congrArg Prod.fst (upsert_cons_of_ne next.1 (fun _ => next.2) run equal))
          have back : (next.1 == entry.1) = false := BEq.comm.trans equal
          rw [behind, ih, List.filter_cons_of_neg (by simp [back]),
            List.filter_cons_of_pos (by simp [back])]
          rfl

theorem Run.filter_writeAll (keep : κ → Bool)
    (respects : ∀ {first second : κ}, (first == second) = true → keep first = keep second)
    (entries : List (κ × ν)) (run : Run κ ν) :
    (writeAll entries run).filter (fun entry => keep entry.1) =
      writeAll (entries.filter fun entry => keep entry.1)
        (run.filter fun entry => keep entry.1) := by
  induction entries generalizing run with
  | nil => rfl
  | cons entry entries ih =>
      change (writeAll entries (run.upsert entry.1 fun _ => entry.2).1).filter _ = _
      rw [ih, filter_upsert entry.1 _ keep respects, List.filter_cons]
      cases keep entry.1 <;> rfl

/-- Writing entries one after another leaves them without duplicate keys. -/
theorem dedupInPlace_eq_writeAll [EquivBEq κ] (entries : List (κ × ν)) :
    dedupInPlace entries = Run.writeAll entries [] := by
  induction entries with
  | nil => rfl
  | cons entry entries ih =>
      have first : Run.writeAll (entry :: entries) [] = Run.writeAll entries [entry] := rfl
      have respects {first second : κ} (equal : (first == second) = true) :
          (!first == entry.1) = !second == entry.1 := by rw [BEq.congr_left equal]
      rw [dedupInPlace, ih, first, Run.writeAll_cons,
        Run.filter_writeAll (fun key => !key == entry.1) respects]
      rfl

/-- A dictionary of insertions has their entries without duplicate keys. -/
theorem Dictionary.entries_ofEdits_insertEntry [EquivBEq κ] [BEq ν] (entries : List (κ × ν)) :
    (Dictionary.ofEdits (entries.map .insertEntry)).entries = dedupInPlace entries := by
  have run (dictionary : Dictionary κ ν) :
      ((entries.map .insertEntry).foldl Dictionary.edit dictionary).entries =
        Run.writeAll entries dictionary.entries := by
    induction entries generalizing dictionary with
    | nil => rfl
    | cons entry entries ih =>
        rw [List.map_cons, List.foldl_cons, ih]
        exact congrArg (Run.writeAll entries) (dictionary.entries_insert entry.1 entry.2)
  rw [dedupInPlace_eq_writeAll]
  exact run .empty

end InPlace

variable [Hashable κ]

/-- Whether an entry may stand before another in digit order: unless the hash of the
other comes first. Entries of one hash may stand either way. -/
def digitLE (first second : κ × ν) : Bool := !decide (Precedes (hash second.1) (hash first.1))

theorem digitLE_iff {first second : κ × ν} : digitLE first second = true ↔
    Precedes (hash first.1) (hash second.1) ∨ hash first.1 = hash second.1 := by
  rw [digitLE, Bool.not_eq_true', decide_eq_false_iff_not]
  constructor
  · intro notAfter
    by_cases same : hash first.1 = hash second.1
    · exact .inr same
    · exact .inl ((precedes_or_precedes same).resolve_right notAfter)
  · rintro (before | same)
    · exact before.not_symm
    · rw [same]
      exact not_precedes_self _

theorem digitLE_trans (first second third : κ × ν) (before : digitLE first second = true)
    (next : digitLE second third = true) : digitLE first third = true := by
  rw [digitLE_iff] at before next ⊢
  rcases before with before | same
  · rcases next with next | same
    · exact .inl (before.trans next)
    · exact .inl (same ▸ before)
  · rwa [same]

theorem digitLE_total (first second : κ × ν) :
    (digitLE first second || digitLE second first) = true := by
  rw [Bool.or_eq_true, digitLE_iff, digitLE_iff]
  by_cases same : hash first.1 = hash second.1
  · exact .inl (.inr same)
  · exact (precedes_or_precedes same).imp .inl .inl

theorem hash_eq_of_digitLE {first second : κ × ν} (before : digitLE first second = true)
    (after : digitLE second first = true) : hash first.1 = hash second.1 := by
  rcases digitLE_iff.mp before with precedes | same
  · rcases digitLE_iff.mp after with follows | same
    · exact absurd follows precedes.not_symm
    · exact same.symm
  · exact same

/-- Any two entries stand in digit order. -/
def InDigitOrder (entries : List (κ × ν)) : Prop :=
  entries.Pairwise fun first second => digitLE first second = true

theorem InDigitOrder.head_le {entry other : κ × ν} {entries : List (κ × ν)}
    (ordered : InDigitOrder (entry :: entries)) (member : other ∈ entry :: entries) :
    digitLE entry other = true := by
  rcases List.mem_cons.mp member with rfl | member
  · exact digitLE_iff.mpr (.inr rfl)
  · exact (List.pairwise_cons.mp ordered).1 other member

/-- Two lists in digit order with the same runs are the same. -/
theorem eq_of_inDigitOrder {first second : List (κ × ν)} (ordered : InDigitOrder first)
    (otherOrdered : InDigitOrder second)
    (same : ∀ code, runOf code first = runOf code second) : first = second := by
  induction first generalizing second with
  | nil =>
      cases second with
      | nil => rfl
      | cons other others =>
          have here := same (hash other.1)
          rw [runOf_cons_of_eq rfl] at here
          cases here
  | cons entry entries ih =>
      have member : entry ∈ second := by
        rw [mem_iff_mem_runOf, ← same, runOf_cons_of_eq rfl]
        exact List.mem_cons_self
      cases second with
      | nil => cases member
      | cons other others =>
          -- each head stands in both lists, so neither hash comes before the other
          have otherMember : other ∈ entry :: entries := by
            rw [mem_iff_mem_runOf, same, runOf_cons_of_eq rfl]
            exact List.mem_cons_self
          have hashes : hash entry.1 = hash other.1 :=
            hash_eq_of_digitLE (ordered.head_le otherMember) (otherOrdered.head_le member)
          have heads := same (hash entry.1)
          rw [runOf_cons_of_eq rfl, runOf_cons_of_eq hashes.symm, List.cons.injEq] at heads
          obtain ⟨rfl, -⟩ := heads
          refine congrArg (entry :: ·) (ih ordered.of_cons otherOrdered.of_cons ?_)
          intro code
          have here := same code
          by_cases atCode : hash entry.1 = code
          · rw [runOf_cons_of_eq atCode, runOf_cons_of_eq atCode] at here
            exact (List.cons.inj here).2
          · rwa [runOf_cons_of_ne atCode, runOf_cons_of_ne atCode] at here

theorem inDigitOrder_mergeSort (entries : List (κ × ν)) :
    InDigitOrder (entries.mergeSort digitLE) :=
  List.pairwise_mergeSort digitLE_trans digitLE_total entries

/-- Sorting by digit order is stable: it keeps the run of each hash. -/
theorem runOf_mergeSort (entries : List (κ × ν)) (code : UInt64) :
    runOf code (entries.mergeSort digitLE) = runOf code entries := by
  have level : (runOf code entries).Pairwise fun first second => digitLE first second = true := by
    refine List.pairwise_of_forall_mem_list ?_
    intro first member second otherMember
    exact digitLE_iff.mpr
      (.inr ((mem_runOf.mp member).2.trans (mem_runOf.mp otherMember).2.symm))
  have sublist : (runOf code entries).Sublist (entries.mergeSort digitLE) :=
    List.sublist_mergeSort digitLE_trans digitLE_total level List.filter_sublist
  have filtered : (runOf code entries).Sublist (runOf code (entries.mergeSort digitLE)) := by
    have kept := sublist.filter fun entry => hash entry.1 == code
    rwa [← runOf, runOf_eq_self fun entry member => (mem_runOf.mp member).2] at kept
  have perm : (runOf code (entries.mergeSort digitLE)).Perm (runOf code entries) :=
    (List.mergeSort_perm entries digitLE).filter _
  exact (filtered.eq_of_length perm.length_eq.symm).symm

namespace Trie

variable [BEq κ]

/-- A trie whose entries all lie under one path of digits lists them in digit order. -/
theorem WellFormed.inDigitOrder {depth : Nat} {trie : Trie κ ν} {path : Nat → Slot}
    (wellFormed : WellFormed depth trie) (under : Under path depth trie.toList) :
    InDigitOrder trie.toList := by
  induction wellFormed generalizing path with
  | leaf _ _ hashed =>
      refine List.pairwise_of_forall_mem_list ?_
      intro first member second otherMember
      exact digitLE_iff.mpr (.inr ((hashed first member).trans (hashed second otherMember).symm))
  | @branch depth _ bitmap _ children _ full _ sound routed _ _ ih =>
      have placed := Placed.of_children full sound routed
      rw [toList] at under ⊢
      rw [InDigitOrder, toLists_eq_flatMap_entriesAt full, List.pairwise_flatMap]
      constructor
      · intro slot _
        obtain ⟨next, agree, rfl⟩ := Agree.exists_next path depth slot
        have underChild := placed.under_entriesAt under agree
        cases found : childAt bitmap children (next depth) with
        | none =>
            rw [entriesAt, found]
            exact List.Pairwise.nil
        | some child =>
            rw [entriesAt_of_childAt found] at underChild ⊢
            exact ih child ((mem_iff_childAt full).mpr ⟨_, found⟩) underChild
      · -- all hashes agree with the path below this depth, so the slots decide
        refine (List.pairwise_lt_finRange 32).imp fun {slot later} less first member second
          otherMember => digitLE_iff.mpr (.inl ⟨depth, ?_, ?_⟩)
        · have atFirst := under first ((mem_toLists_iff full).mpr ⟨slot, member⟩)
          exact atFirst.trans (under second ((mem_toLists_iff full).mpr ⟨later, otherMember⟩)).symm
        · rwa [placed.routed slot first member, placed.routed later second otherMember]

end Trie

variable [BEq κ]

theorem TrieMap.WellFormed.inDigitOrder {map : TrieMap κ ν} (wellFormed : map.WellFormed) :
    InDigitOrder map.toList := by
  rcases wellFormed.root with empty | sound
  · rw [TrieMap.toList, empty]
    exact List.Pairwise.nil
  · exact sound.inDigitOrder (.root _)

/-- A map is iterated in the order of its dictionary, sorted by digits. -/
theorem Represents.toList_eq {map : TrieMap κ ν} {dictionary : Dictionary κ ν}
    (represents : Represents map dictionary) :
    map.toList = dictionary.entries.mergeSort digitLE := by
  apply eq_of_inDigitOrder represents.wellFormed.inDigitOrder (inDigitOrder_mergeSort _)
  intro code
  rw [runOf_mergeSort, represents.runs]

/-- A map of entries is the map of as many insertions. -/
theorem TrieMap.ofList_eq_ofEdits [BEq ν] (stamp : Stamp) (entries : List (κ × ν)) :
    TrieMap.ofList stamp entries =
      TrieMap.ofEdits (entries.map fun entry => (stamp, .insertEntry entry)) := by
  rw [ofEdits, List.foldl_map]
  rfl

section Histories

variable [EquivBEq κ] [LawfulHashable κ]

/-- **Canonical order.** After any edits, applied one after another from the empty map
on, a map is iterated as the stable sort of its dictionary by the digits of the hashes:
of two entries with different hashes the one comes first whose digit is smaller at the
lowest level where they differ, and entries with one hash stand in the order in which
their keys were last added. In particular a map of given entries is iterated as the
stable sort of these entries without duplicate keys. -/
theorem iteration_eq_mergeSort [BEq ν] :
    (∀ edits : List (Stamp × Edit κ ν), (TrieMap.ofEdits edits).cursor.rest =
        (Dictionary.ofEdits (edits.map Prod.snd)).entries.mergeSort digitLE) ∧
      ∀ (stamp : Stamp) (entries : List (κ × ν)), (TrieMap.ofList stamp entries).cursor.rest =
        (dedupInPlace entries).mergeSort digitLE := by
  have iterated (edits : List (Stamp × Edit κ ν)) : (TrieMap.ofEdits edits).cursor.rest =
      (Dictionary.ofEdits (edits.map Prod.snd)).entries.mergeSort digitLE :=
    (Trie.Cursor.rest_start _).trans (Represents.ofEdits edits).toList_eq
  refine ⟨iterated, ?_⟩
  intro stamp entries
  have sorted := iterated (entries.map fun entry => (stamp, .insertEntry entry))
  have edits : (entries.map fun entry => (stamp, Edit.insertEntry entry)).map Prod.snd =
      entries.map .insertEntry := by
    rw [List.map_map]
    rfl
  rwa [← TrieMap.ofList_eq_ofEdits, edits, Dictionary.entries_ofEdits_insertEntry] at sorted

omit [Hashable κ] [BEq κ] [EquivBEq κ] [LawfulHashable κ] in
/-- The keys 0 and 2^64 have one hash, and 32 differs from it in the second digit. Key
2^64 is taken out and added again, so it comes after 0. -/
theorem iteration_eq_mergeSort_of_collisions :
    let twin := 0x10000000000000000
    let edits : List (Stamp × Edit Nat Nat) :=
      [(.ofNat 0, .insert 32 1), (.ofNat 1, .insert twin 2), (.ofNat 2, .insert 0 3),
        (.ofNat 3, .erase twin), (.ofNat 4, .alter twin fun _ => some 4),
        (.ofNat 5, .update 0 (· + 2))]
    (TrieMap.ofEdits edits).cursor.rest =
        (Dictionary.ofEdits (edits.map Prod.snd)).entries.mergeSort digitLE ∧
      (Dictionary.ofEdits (edits.map Prod.snd)).entries = [(32, 1), (0, 5), (twin, 4)] ∧
      (TrieMap.ofEdits edits).toList = [(0, 5), (twin, 4), (32, 1)] :=
  ⟨iteration_eq_mergeSort.1 _, by decide, by decide⟩

end Histories

end HashTrie
