import HashTrie.Proofs.Reachable

/-!
# Merging as union

A merge with a resolution is the union of two maps, key by key
(`mergeWith_isUnion`). The number of its entries is the number of distinct keys of
the two, where keys are told apart by their equality test and not as terms; the
first lemmas are about lists whose elements that test finds pairwise unequal, or that
have partners of their own in another list.
-/

namespace HashTrie

/-- Elements with partners in another list, no two with the same one, are no more than the
other list has; if they are as many, nothing there is without a partner. -/
theorem length_le_of_partners {α β : Type} {related : α → β → Prop} {first : List α}
    {second : List β}
    (apart : first.Pairwise fun one other =>
      ∀ partner, related one partner → ¬ related other partner)
    (found : ∀ element ∈ first, ∃ partner ∈ second, related element partner) :
    first.length ≤ second.length ∧ (second.length ≤ first.length →
      ∀ partner ∈ second, ∃ element ∈ first, related element partner) := by
  induction apart generalizing second with
  | nil =>
      refine ⟨Nat.zero_le _, ?_⟩
      intro short partner member
      rw [List.eq_nil_of_length_eq_zero (Nat.le_zero.mp short)] at member
      cases member
  | @cons head tail unshared _ ih =>
      obtain ⟨partner, member, paired⟩ := found head List.mem_cons_self
      obtain ⟨front, back, rfl⟩ := List.append_of_mem member
      have moved : (front ++ partner :: back).Perm (partner :: (front ++ back)) :=
        List.perm_middle
      -- the partner of the head is no partner of the tail
      have rest : ∀ element ∈ tail, ∃ partner ∈ front ++ back, related element partner := by
        intro element inTail
        obtain ⟨other, held, pair⟩ := found element (.tail _ inTail)
        rcases List.mem_cons.mp (moved.mem_iff.mp held) with rfl | held
        · exact absurd pair (unshared element inTail other paired)
        · exact ⟨other, held, pair⟩
      obtain ⟨bound, covered⟩ := ih rest
      rw [moved.length_eq, List.length_cons, List.length_cons]
      refine ⟨Nat.succ_le_succ bound, ?_⟩
      intro short other held
      rcases List.mem_cons.mp (moved.mem_iff.mp held) with rfl | held
      · exact ⟨head, List.mem_cons_self, paired⟩
      · obtain ⟨element, inTail, pair⟩ := covered (Nat.le_of_succ_le_succ short) other held
        exact ⟨element, .tail _ inTail, pair⟩

variable {κ ν : Type} [BEq κ]

section Unequal

variable {first second : List κ}

theorem any_eq_true_of_beq [EquivBEq κ] {key probe : κ} (equal : (key == probe) = true) :
    second.any (· == key) = second.any (· == probe) := by
  congr 1
  funext other
  exact BEq.congr_right equal

/-- Among unequal elements a key is equal to at most one. -/
theorem countP_of_unequal [EquivBEq κ] (unequal : first.Pairwise fun a b => (a == b) = false)
    (key : κ) : first.countP (· == key) = if first.any (· == key) then 1 else 0 := by
  induction unequal with
  | nil => rfl
  | @cons head tail apart _ ih =>
      rw [List.countP_cons, List.any_cons, ih]
      cases atHead : head == key with
      | false => simp
      | true =>
          have none : tail.any (· == key) = false := by
            rw [← any_eq_true_of_beq atHead, List.any_eq_false]
            intro other member
            rw [BEq.comm, apart other member]
            exact Bool.false_ne_true
          simp [none]

/-- Unequal elements that are all found in a second list are no more than it has. -/
theorem length_le_of_any [EquivBEq κ] (unequal : first.Pairwise fun a b => (a == b) = false)
    (found : ∀ key ∈ first, second.any (· == key) = true) : first.length ≤ second.length := by
  have apart : first.Pairwise fun key other =>
      ∀ partner : κ, (partner == key) = true → ¬ (partner == other) = true := by
    refine unequal.imp ?_
    intro key other different partner atKey atOther
    rw [BEq.trans (BEq.symm atKey) atOther] at different
    cases different
  exact (length_le_of_partners apart fun key member => List.any_eq_true.mp (found key member)).1

/-- Leaving out an element leaves those that are unequal to it. -/
theorem any_filter_of_unequal [EquivBEq κ] {head key : κ} (unequal : (head == key) = false)
    (tail : List κ) : (tail.filter fun other => !other == head).any (· == key) =
      tail.any (· == key) := by
  rw [List.any_filter]
  congr 1
  funext other
  cases same : other == head with
  | false => rfl
  | true => simp [BEq.congr_left same, unequal]

theorem any_eraseDups [EquivBEq κ] (list : List κ) (key : κ) :
    list.eraseDups.any (· == key) = list.any (· == key) := by
  match list with
  | [] => rfl
  | head :: tail =>
      rw [List.eraseDups_cons, List.any_cons, List.any_cons, any_eraseDups]
      cases atHead : head == key with
      | true => rfl
      | false => rw [any_filter_of_unequal atHead]
termination_by list.length
decreasing_by exact Nat.lt_succ_of_le (List.length_filter_le ..)

/-- A last element is new, or an earlier one stands for it. -/
theorem eraseDups_concat [EquivBEq κ] (list : List κ) (last : κ) :
    (list ++ [last]).eraseDups =
      if list.any (· == last) then list.eraseDups else list.eraseDups ++ [last] := by
  match list with
  | [] => rfl
  | head :: tail =>
      rw [List.cons_append, List.eraseDups_cons, List.eraseDups_cons, List.filter_append,
        List.any_cons]
      cases atHead : head == last with
      | true => simp [BEq.symm atHead]
      | false =>
          have kept : [last].filter (fun other => !other == head) = [last] := by
            simp [BEq.comm (a := last), atHead]
          rw [kept, eraseDups_concat, any_filter_of_unequal atHead, Bool.false_or]
          split <;> rfl
termination_by list.length
decreasing_by exact Nat.lt_succ_of_le (List.length_filter_le ..)

theorem unequal_eraseDups [EquivBEq κ] (list : List κ) :
    list.eraseDups.Pairwise fun a b => (a == b) = false := by
  match list with
  | [] => exact List.Pairwise.nil
  | head :: tail =>
      rw [List.eraseDups_cons]
      refine List.Pairwise.cons ?_ (unequal_eraseDups _)
      intro other member
      have held : (tail.filter fun b => !b == head).any (· == other) = true := by
        rw [← any_eraseDups]
        exact List.any_eq_true.mpr ⟨other, member, BEq.rfl⟩
      obtain ⟨original, held, equal⟩ := List.any_eq_true.mp held
      have apart := (List.mem_filter.mp held).2
      rw [BEq.congr_left equal, BEq.comm] at apart
      simpa using apart
termination_by list.length
decreasing_by exact Nat.lt_succ_of_le (List.length_filter_le ..)

/-- Unequal elements are as many as the distinct elements of any list with the same
ones. -/
theorem length_eq_length_eraseDups [EquivBEq κ]
    (unequal : first.Pairwise fun a b => (a == b) = false)
    (same : ∀ key, first.any (· == key) = second.any (· == key)) :
    first.length = second.eraseDups.length := by
  apply Nat.le_antisymm
  · refine length_le_of_any unequal ?_
    intro key member
    rw [any_eraseDups, ← same]
    exact List.any_eq_true.mpr ⟨key, member, BEq.rfl⟩
  · refine length_le_of_any (unequal_eraseDups second) ?_
    intro key member
    rw [same, ← any_eraseDups]
    exact List.any_eq_true.mpr ⟨key, member, BEq.rfl⟩

end Unequal

namespace TrieMap

variable [Hashable κ] [EquivBEq κ] {stamp : Stamp} {map other : TrieMap κ ν}

/-- Each key has the value that the resolution makes of the two, or that of one map. -/
theorem WellFormed.get?_mergeWith (wellFormed : map.WellFormed)
    (otherWellFormed : other.WellFormed) (fresh : stamp ∉ map.root.stamps) (resolve : ν → ν → ν)
    (key : κ) : (map.mergeWith stamp other resolve).get? key =
      Option.merge resolve (map.get? key) (other.get? key) := by
  have merged := (wellFormed.merge_root .descend resolve otherWellFormed fresh).2 (hash key)
  have sound := wellFormed.mergeWith otherWellFormed fresh resolve
  rw [get?, get?, get?, sound.getEntry?_eq_find?, wellFormed.getEntry?_eq_find?,
    otherWellFormed.getEntry?_eq_find?]
  exact merged.find?_map_snd (wellFormed.distinct_runOf _) (otherWellFormed.distinct_runOf _) key

omit [EquivBEq κ] in
theorem containsKey_eq_isSome (map : TrieMap κ ν) (key : κ) :
    map.containsKey key = (map.get? key).isSome := by
  rw [containsKey, get?, Option.isSome_map]

theorem WellFormed.containsKey_mergeWith (wellFormed : map.WellFormed)
    (otherWellFormed : other.WellFormed) (fresh : stamp ∉ map.root.stamps) (resolve : ν → ν → ν)
    (key : κ) : (map.mergeWith stamp other resolve).containsKey key =
      (map.containsKey key || other.containsKey key) := by
  rw [containsKey_eq_isSome, containsKey_eq_isSome, containsKey_eq_isSome,
    wellFormed.get?_mergeWith otherWellFormed fresh]
  cases map.get? key <;> cases other.get? key <;> rfl

end TrieMap

variable [Hashable κ] [EquivBEq κ] [LawfulHashable κ]

/-- **Merging is union.** Whatever two maps of a history share, a key of both has the
value that the resolution makes of the one in the first and the one in the second, a
key of one has its value there, and any other key has none. The length is the number
of distinct keys of both maps, and the iteration meets each of them exactly once. -/
theorem mergeWith_isUnion {pool : Pool κ} {stamp : Stamp} {map other : TrieMap κ ν}
    (reachable : Reachable pool) (held : ⟨ν, map⟩ ∈ pool) (otherHeld : ⟨ν, other⟩ ∈ pool)
    (fresh : Fresh stamp pool) (resolve : ν → ν → ν) :
    (∀ key, (map.mergeWith stamp other resolve).get? key =
        Option.merge resolve (map.get? key) (other.get? key)) ∧
      (map.mergeWith stamp other resolve).length =
        (map.keys ++ other.keys).eraseDups.length ∧
      ∀ key, (map.mergeWith stamp other resolve).keys.countP (· == key) =
        if map.containsKey key || other.containsKey key then 1 else 0 := by
  have wellFormed := reachable.sound held
  have otherWellFormed := reachable.sound otherHeld
  have new : stamp ∉ map.root.stamps := fresh _ held
  have sound := wellFormed.mergeWith otherWellFormed new resolve
  have unequal : (map.mergeWith stamp other resolve).keys.Pairwise fun a b => (a == b) = false :=
    List.pairwise_map.mpr sound.distinct_toList
  have members (key : κ) : (map.mergeWith stamp other resolve).keys.any (· == key) =
      (map.containsKey key || other.containsKey key) := by
    rw [← sound.containsKey_eq_any, wellFormed.containsKey_mergeWith otherWellFormed new]
  refine ⟨wellFormed.get?_mergeWith otherWellFormed new resolve, ?_, ?_⟩
  · have same (key : κ) : (map.mergeWith stamp other resolve).keys.any (· == key) =
        (map.keys ++ other.keys).any (· == key) := by
      rw [members, List.any_append, wellFormed.containsKey_eq_any,
        otherWellFormed.containsKey_eq_any]
    rw [sound.length, ← length_eq_length_eraseDups unequal same, TrieMap.keys, List.length_map]
  · intro key
    rw [countP_of_unequal unequal, members]

omit [BEq κ] [Hashable κ] [EquivBEq κ] [LawfulHashable κ] in
/-- The keys 0 and 2^64 have one hash, and 32 differs from it in the second digit. The
second map is made from the first and shares the node of 32 with it. -/
theorem mergeWith_isUnion_of_collisions :
    let map : TrieMap Nat Nat := .ofList (.ofNat 0) [(0, 10), (32, 20)]
    let twin := 0x10000000000000000
    let other := map.insert (.ofNat 1) twin 3
    let merged := other.mergeWith (.ofNat 2) map (· - ·)
    let pool : Pool Nat := [⟨Nat, other⟩, ⟨Nat, map⟩]
    Reachable pool ∧ Fresh (.ofNat 2) pool ∧
      ((∀ key, merged.get? key = Option.merge (· - ·) (other.get? key) (map.get? key)) ∧
        merged.length = (other.keys ++ map.keys).eraseDups.length ∧
        ∀ key, merged.keys.countP (· == key) =
          if other.containsKey key || map.containsKey key then 1 else 0) ∧
      merged.toList = [(0, 0), (twin, 3), (32, 0)] := by
  intro map twin other merged pool
  have first : Reachable [⟨Nat, map⟩] := .cons .nil (by decide) (.ofList _)
  have second : Reachable pool := .cons first (by decide) (.insert List.mem_cons_self twin 3)
  have fresh : Fresh (.ofNat 2) pool := by decide
  have held : ⟨Nat, map⟩ ∈ pool := List.mem_cons_of_mem _ List.mem_cons_self
  exact ⟨second, fresh, mergeWith_isUnion second List.mem_cons_self held fresh (· - ·), by decide⟩

end HashTrie
