import HashTrie.Proofs.Equality
import HashTrie.Proofs.MergeOrder
import HashTrie.Proofs.Windows

/-!
# Chunks of a sequence

Chunks are cut by filling one after another, windows by their starts. With a step as long
as the windows both cut the same parts (`chunksFrom_eq_windows`), and these are all of the
sequence (`chunksOf_chunksFrom`). The chunks of a map, merged one after another, are looked
up like the map: each merge adds the entries of one chunk (`Reachable.mergeAll`). The main
result is `grouped_chunks`.
-/

namespace HashTrie

variable {κ ν : Type}

namespace Traversal

/-- What makes parts of a list its chunks of a size: their number, that they are all of the
list, and that only the last one can be short, which is not empty either. -/
structure ChunksOf {α : Type} (elements : List α) (size : Nat) (parts : List (List α)) : Prop where
  number : parts.length = elements.length ⌈/⌉ size
  complete : parts.flatten = elements
  full : ∀ part ∈ parts.dropLast, part.length = size
  last : ∀ part, parts.getLast? = some part → 0 < part.length ∧ part.length ≤ size

section Parts

variable {α : Type} {size : Nat}

/-- The chunk at hand takes in what there is room for, and the next one starts behind that. -/
theorem chunksFrom_of_room {current elements : List α} {room : Nat} (unfilled : 0 < room)
    (inhabited : current ≠ [] ∨ elements ≠ []) : chunksFrom size current room elements =
      (current.reverse ++ elements.take room) ::
        chunksFrom size [] size (elements.drop room) := by
  induction elements generalizing current room with
  | nil =>
      have started : current.isEmpty = false := by simpa using inhabited
      rw [chunksFrom, started, List.take_nil, List.append_nil, List.drop_nil]
      rfl
  | cons element rest ih =>
      obtain ⟨room, rfl⟩ := Nat.exists_eq_add_of_lt unfilled
      rw [Nat.zero_add, List.take_succ_cons, List.drop_succ_cons, chunksFrom]
      by_cases filled : room = 0
      · subst filled
        rw [if_pos (Nat.le_refl 1), List.reverse_cons]
        rfl
      · rw [if_neg (by omega), Nat.add_sub_cancel,
          ih (Nat.pos_of_ne_zero filled) (.inl (List.cons_ne_nil _ _)), List.reverse_cons,
          List.append_assoc]
        rfl

/-- Chunks are the windows whose step is their size. -/
theorem chunksFrom_eq_windows (sized : 0 < size) (elements : List α) :
    chunksFrom size [] size elements =
      (windowStarts elements.length size ⟨size, sized⟩ 0).map fun start =>
        window size start elements := by
  have fromStart (start : Nat) : chunksFrom size [] size (elements.drop start) =
      (windowStarts elements.length size ⟨size, sized⟩ start).map fun start =>
        window size start elements := by
    fun_induction windowStarts elements.length size ⟨size, sized⟩ start with
    | case1 start inside continues ih =>
        have inhabited : elements.drop start ≠ [] := by simpa using inside
        rw [chunksFrom_of_room sized (.inr inhabited), List.drop_drop, ih]
        rfl
    | case2 start inside reached =>
        have inhabited : elements.drop start ≠ [] := by simpa using inside
        have ended : elements.drop (start + size) = [] :=
          List.drop_eq_nil_of_le (Nat.le_of_not_lt reached)
        rw [chunksFrom_of_room sized (.inr inhabited), List.drop_drop, ended]
        rfl
    | case3 start beyond =>
        rw [List.drop_eq_nil_of_le (Nat.le_of_not_lt beyond)]
        rfl
  exact fromStart 0

theorem flatten_chunksFrom (current : List α) (room : Nat) (elements : List α) :
    (chunksFrom size current room elements).flatten = current.reverse ++ elements := by
  induction elements generalizing current room with
  | nil =>
      cases current with
      | nil => rfl
      | cons newest older => simp [chunksFrom]
  | cons element rest ih =>
      rw [chunksFrom]
      split
      · rw [List.flatten_cons, ih, List.reverse_cons, List.append_assoc]
        rfl
      · rw [ih, List.reverse_cons, List.append_assoc]
        rfl

theorem windowCount_self {length : Nat} (sized : 0 < size) :
    windowCount length size size = length ⌈/⌉ size := by
  unfold windowCount
  split
  · rename_i nothing
    rw [nothing, zero_ceilDiv]
  · split
    · rename_i some fits
      exact (ceilDiv_of_le (Nat.pos_of_ne_zero some) fits).symm
    · rename_i longer
      rw [if_pos (Nat.le_refl size), Nat.add_comm, ← add_ceilDiv _ sized,
        Nat.sub_add_cancel (Nat.le_of_not_le longer)]

/-- Filling chunks one after another cuts the chunks of a list. -/
theorem chunksOf_chunksFrom (sized : 0 < size) (elements : List α) :
    ChunksOf elements size (chunksFrom size [] size elements) := by
  have windows := windowsOf_windowStarts size ⟨size, sized⟩ sized elements
  rw [← chunksFrom_eq_windows sized elements] at windows
  refine ⟨windows.number.trans (windowCount_self sized), flatten_chunksFrom [] size elements,
    windows.full, ?_⟩
  intro part last
  have member := List.mem_of_getLast? last
  refine ⟨List.length_pos_of_ne_nil (windows.inhabited part member), ?_⟩
  rw [chunksFrom_eq_windows sized] at member
  obtain ⟨start, -, rfl⟩ := List.mem_map.mp member
  rw [length_window]
  exact Nat.min_le_left _ _

end Parts

end Traversal

section Merging

open Traversal

variable [BEq κ] [Hashable κ] {map : TrieMap κ ν}

/-- Merge maps into a map one after another, each merge with a stamp of its own. -/
def TrieMap.mergeAll (map : TrieMap κ ν) (others : List (Stamp × TrieMap κ ν)) : TrieMap κ ν :=
  others.foldl (fun merged other => merged.merge other.1 other.2) map

/-- A key is looked up in maps whose iterations follow one another to make up the iteration
of a map. -/
theorem TrieMap.WellFormed.findSome?_of_flatten (wellFormed : map.WellFormed)
    {chunks : List (TrieMap κ ν)} (sound : ∀ chunk ∈ chunks, chunk.WellFormed)
    (iterated : (chunks.map toList).flatten = map.toList) (key : κ) :
    (chunks.findSome? fun chunk => chunk.getEntry? key) = map.getEntry? key := by
  rw [wellFormed.getEntry?_eq_find?, ← iterated, runOf, List.filter_flatten, Run.find?,
    List.find?_flatten, List.map_map, List.findSome?_map]
  clear iterated
  induction chunks with
  | nil => rfl
  | cons chunk chunks ih =>
      rw [List.findSome?_cons, List.findSome?_cons,
        (sound chunk List.mem_cons_self).getEntry?_eq_find?,
        ih fun chunk member => sound chunk (.tail _ member)]
      rfl

variable [EquivBEq κ] {pool : Pool κ}

/-- Held maps that are merged into a held map one after another, with new stamps, are looked
up in their order, after the map. -/
theorem Reachable.mergeAll (reachable : Reachable pool) (held : ⟨ν, map⟩ ∈ pool)
    {others : List (Stamp × TrieMap κ ν)} (othersHeld : ∀ other ∈ others, ⟨ν, other.2⟩ ∈ pool)
    (distinct : (others.map Prod.fst).Nodup) (fresh : ∀ other ∈ others, Fresh other.1 pool) :
    (map.mergeAll others).WellFormed ∧ ∀ key, TrieMap.getEntry? (map.mergeAll others) key =
      (map.getEntry? key).or (others.findSome? fun other => TrieMap.getEntry? other.2 key) := by
  induction others generalizing pool map with
  | nil =>
      refine ⟨reachable.sound held, ?_⟩
      intro key
      exact Option.or_none.symm
  | cons other others ih =>
      obtain ⟨stamp, other⟩ := other
      have otherHeld := othersHeld _ List.mem_cons_self
      have stampFresh := fresh _ List.mem_cons_self
      obtain ⟨new, distinct⟩ := List.nodup_cons.mp distinct
      have made : Makes pool stamp (map.merge stamp other) := .merge held otherHeld
      have next := ih (.cons reachable stampFresh made) List.mem_cons_self
        (fun third member => .tail _ (othersHeld third (.tail _ member))) distinct
        (fun third member => made.fresh_cons reachable stampFresh (fresh third (.tail _ member))
          fun same => new (List.mem_map.mpr ⟨third, member, same⟩))
      refine ⟨next.1, ?_⟩
      intro key
      have merged := (reachable.sound held).getEntry?_merge (reachable.sound otherHeld)
        (stampFresh _ held) (reachable.coherent held otherHeld) key
      rw [TrieMap.mergeAll, List.foldl_cons]
      refine (next.2 key).trans ?_
      rw [merged, Option.or_assoc, List.findSome?_cons]
      cases other.getEntry? key <;> rfl

/-- A program that has collected maps from parts holds these maps, besides the empty one, and
their nodes have no stamps but those of the parts. -/
theorem exists_reachable_collectParts (stamp : Stamp) (parts : List (List (κ × ν))) :
    ∃ pool : Pool κ, Reachable pool ∧ ⟨ν, .empty⟩ ∈ pool ∧
      (∀ chunk ∈ (collectParts stamp parts : List (TrieMap κ ν)), ⟨ν, chunk⟩ ∈ pool) ∧
      ∀ mark, (∀ index < parts.length, mark ≠ stamp.part index) → Fresh mark pool := by
  induction parts using List.reverseRecOn with
  | nil =>
      refine ⟨[⟨ν, .empty⟩], .cons .nil (fresh_nil stamp) .empty, List.mem_cons_self, ?_, ?_⟩
      · intro chunk member
        cases member
      · intro mark _ held member
        obtain rfl := List.mem_singleton.mp member
        exact List.not_mem_nil
  | append_singleton parts part ih =>
      obtain ⟨pool, reachable, emptyHeld, held, fresh⟩ := ih
      have made : Makes pool (stamp.part parts.length)
          (TrieMap.ofList (stamp.part parts.length) part) := .ofList part
      have partFresh : Fresh (stamp.part parts.length) pool := by
        refine fresh _ ?_
        intro index before same
        exact Nat.ne_of_gt before (Stamp.part_inj.mp same).1
      refine ⟨_, .cons reachable partFresh made, .tail _ emptyHeld, ?_, ?_⟩
      · intro chunk member
        rw [collectParts, List.mapIdx_concat, List.mem_append, List.mem_singleton] at member
        rcases member with member | rfl
        · exact .tail _ (held chunk member)
        · exact List.mem_cons_self
      · intro mark different
        rw [List.length_append, List.length_singleton] at different
        refine made.fresh_cons reachable partFresh (fresh mark ?_)
          (different _ (Nat.lt_succ_self _))
        intro index before
        exact different index (Nat.lt_succ_of_lt before)

/-- Maps collected from consecutive parts of the iteration of a map are iterated as these
parts. -/
theorem TrieMap.WellFormed.map_toList_collectParts (wellFormed : map.WellFormed) (stamp : Stamp)
    {parts : List (List (κ × ν))} (complete : parts.flatten = map.toList) :
    (collectParts stamp parts : List (TrieMap κ ν)).map toList = parts := by
  rw [← List.forall₂_eq_eq_eq, List.forall₂_map_left_iff]
  refine forall₂_collectParts stamp ?_
  intro stamp part member
  exact wellFormed.toList_ofList_sublist stamp (complete ▸ List.sublist_flatten_of_mem member)

/-- Merged one after another, maps collected from consecutive parts of the iteration of a
map are looked up as the map is. -/
theorem TrieMap.WellFormed.mergeAll_collectParts (wellFormed : map.WellFormed) {stamp : Stamp}
    {parts : List (List (κ × ν))} (complete : parts.flatten = map.toList) {marks : List Stamp}
    (aligned : marks.length = parts.length) (distinct : marks.Nodup)
    (apart : ∀ mark ∈ marks, ∀ index, mark ≠ stamp.part index) :
    let merged := TrieMap.empty.mergeAll (marks.zip (collectParts stamp parts))
    merged.WellFormed ∧ ∀ key, merged.getEntry? key = map.getEntry? key := by
  obtain ⟨pool, reachable, emptyHeld, held, fresh⟩ := exists_reachable_collectParts stamp parts
  have iterated := wellFormed.map_toList_collectParts stamp complete
  generalize (collectParts stamp parts : List (TrieMap κ ν)) = chunks
    at held iterated ⊢
  have long : marks.length = chunks.length := by
    rw [aligned, ← iterated, List.length_map]
  have firsts : (marks.zip chunks).map Prod.fst = marks := List.map_fst_zip (Nat.le_of_eq long)
  have seconds : (marks.zip chunks).map Prod.snd = chunks :=
    List.map_snd_zip (Nat.le_of_eq long.symm)
  have zipHeld : ∀ other ∈ marks.zip chunks, ⟨ν, other.2⟩ ∈ pool :=
    fun _ member => held _ (List.of_mem_zip member).2
  obtain ⟨sound, lookup⟩ := reachable.mergeAll emptyHeld zipHeld (firsts.symm ▸ distinct)
    fun _ member => fresh _ fun index _ => apart _ (List.of_mem_zip member).1 index
  refine ⟨sound, ?_⟩
  intro key
  have absent : getEntry? (empty : TrieMap κ ν) key = none := rfl
  rw [lookup, absent, Option.none_or, ← wellFormed.findSome?_of_flatten
    (fun chunk member => reachable.sound (held chunk member)) (iterated.symm ▸ complete)]
  conv => rhs; rw [← seconds, List.findSome?_map]
  rfl

end Merging

namespace Traversal

theorem grouped_of_pos {σ δ κ ν : Type} [EntrySequence σ κ ν] [Collection δ κ ν] {source : σ}
    {size : Nat} {stamp : Stamp} (sized : 0 < size) :
    (grouped stamp source size : Except MapError (List δ)) =
      .ok (collectParts stamp (chunksFrom size [] size (entries source))) := by
  rw [grouped, requirePositive_of_pos .grouped .size sized]
  rfl

/-- **Chunks.** For a positive size, whatever the source and the containers, chunking gives
what windows of the size give that are as far apart, and the containers are those of the
chunks of the entry sequence. The chunks of a map, if they are maps themselves, are
iterated as the map is, and merged one after another they make up a map equal to it. -/
theorem grouped_chunks {κ ν : Type} {size : Nat} (sized : 0 < size) :
    (∀ {σ δ : Type} [EntrySequence σ κ ν] [Collection δ κ ν] (stamp : Stamp) (source : σ),
        (grouped stamp source size : Except MapError (List δ)) =
          slidingBy stamp source size size ∧
        ∃ parts, ChunksOf (entries source) size parts ∧
          grouped stamp source size = .ok (collectParts stamp parts : List δ)) ∧
      ∀ [BEq κ] [Hashable κ] [EquivBEq κ] {pool : Pool κ} {map : TrieMap κ ν},
        Reachable pool → ⟨ν, map⟩ ∈ pool → ∀ stamp, ∃ chunks : List (TrieMap κ ν),
          grouped stamp map size = .ok chunks ∧
          (chunks.map fun chunk => chunk.cursor.rest).flatten = map.cursor.rest ∧
          ∀ [BEq ν] [ReflBEq ν] (marks : List Stamp), marks.length = chunks.length →
            marks.Nodup → (∀ mark ∈ marks, ∀ index, mark ≠ stamp.part index) →
              let merged := TrieMap.empty.mergeAll (marks.zip chunks)
              (merged == map) = true ∧ (map == merged) = true := by
  refine ⟨?_, ?_⟩
  · intro σ δ _ _ stamp source
    refine ⟨?_, _, chunksOf_chunksFrom sized (entries source), grouped_of_pos sized⟩
    rw [grouped_of_pos sized, slidingBy_of_pos sized sized, chunksFrom_eq_windows sized]
  · intro _ _ _ pool map reachable held stamp
    have wellFormed := reachable.sound held
    have complete : (chunksFrom size [] size map.toList).flatten = map.toList :=
      flatten_chunksFrom [] size map.toList
    have iterated := wellFormed.map_toList_collectParts stamp complete
    refine ⟨_, grouped_of_pos sized, ?_, ?_⟩
    · simp only [TrieMap.cursor, Trie.Cursor.rest_start]
      exact (congrArg List.flatten iterated).trans complete
    · intro _ _ marks aligned distinct apart merged
      rw [collectParts, List.length_mapIdx] at aligned
      obtain ⟨sound, lookup⟩ :=
        wellFormed.mergeAll_collectParts complete aligned distinct apart
      exact ⟨sound.beq_of_lookup wellFormed lookup,
        wellFormed.beq_of_lookup sound fun key => (lookup key).symm⟩

/-- The keys 0, 2^64 and 2^65 have one hash, and 32 differs from it in the second digit. A
boundary between chunks cuts the run of the first three, which a merge makes whole again. -/
theorem grouped_chunks_of_collisions :
    let twin := 0x10000000000000000
    let map : TrieMap Nat Nat := .ofList (.ofNat 0) [(32, 1), (twin, 2), (2 * twin, 3), (0, 4)]
    ∃ chunks : List (TrieMap Nat Nat), grouped (.ofNat 1) map 2 = .ok chunks ∧
      chunks.map TrieMap.toList = [[(twin, 2), (2 * twin, 3)], [(0, 4), (32, 1)]] ∧
      (TrieMap.empty.mergeAll ([.ofNat 2, .ofNat 3].zip chunks) == map) = true := by
  intro twin map
  have reachable : Reachable [⟨Nat, map⟩] := .ofList _ _
  obtain ⟨chunks, cut, -, merges⟩ :=
    (grouped_chunks (Nat.succ_pos 1)).2 reachable List.mem_cons_self (.ofNat 1)
  have listed : (grouped (.ofNat 1) map 2 : Except MapError (List (TrieMap Nat Nat))).toOption.map
      (List.map TrieMap.toList) = some [[(twin, 2), (2 * twin, 3)], [(0, 4), (32, 1)]] := by
    decide +kernel
  rw [cut] at listed
  have lists := Option.some.inj listed
  refine ⟨chunks, cut, lists, (merges [.ofNat 2, .ofNat 3] ?_ (by decide) ?_).1⟩
  · simpa using (congrArg List.length lists).symm
  · simp [Stamp.ofNat, Stamp.part]

end Traversal

end HashTrie
