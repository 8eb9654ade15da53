import HashTrie.Proofs.Cursors
import HashTrie.Proofs.IterationOrder
import HashTrie.Proofs.Reachable
import HashTrie.Proofs.Shapes
import HashTrie.Script.Key

/-!
# Updates in place

Changing the value of a key that is there writes under the key that is stored, not under the
one that is asked for. Written again, a stored key keeps its place in its run
(`Run.upsert_stored`) and so in the iteration (`TrieMap.WellFormed.toList_insert_stored`), and
a trie with the same keys has the same shape. An alteration is one of an update, a removal, an
insertion or nothing at all (`update_in_place`).
-/

namespace HashTrie

variable {κ ν ω : Type}

/-- Writing under a stored key changes its value and nothing else. -/
theorem Run.upsert_stored [BEq κ] [ReflBEq κ] {front back : Run κ ν} {entry : κ × ν} (value : ν)
    (distinct : Run.Distinct (front ++ entry :: back)) :
    (Run.upsert entry.1 (fun _ => value) (front ++ entry :: back)).1 =
      front ++ (entry.1, value) :: back := by
  induction front with
  | nil => rw [List.nil_append, upsert_cons_of_eq _ _ back BEq.rfl, List.nil_append]
  | cons first front ih =>
      obtain ⟨unequal, distinct⟩ := distinct_cons.mp distinct
      have apart := unequal entry (List.mem_append_right front List.mem_cons_self)
      rw [List.cons_append, upsert_cons_of_ne _ _ _ apart, ih distinct, List.cons_append]

/-- Digit order is a matter of the keys. -/
theorem inDigitOrder_congr [Hashable κ] {first : List (κ × ν)} {second : List (κ × ω)}
    (keys : first.map Prod.fst = second.map Prod.fst) :
    InDigitOrder first ↔ InDigitOrder second := by
  have ofKeys {value : Type} (entries : List (κ × value)) : InDigitOrder entries ↔
      (entries.map Prod.fst).Pairwise fun key other => ¬ Precedes (hash other) (hash key) := by
    rw [InDigitOrder, List.pairwise_map]
    simp only [digitLE, Bool.not_eq_true', decide_eq_false_iff_not]
  rw [ofKeys, ofKeys, keys]

variable [BEq κ] [Hashable κ] [EquivBEq κ] {map : TrieMap κ ν} {key : κ} {entry : κ × ν}
  {front back : List (κ × ν)}

namespace TrieMap.WellFormed

/-- Writing under a stored key changes the iteration in one place. -/
theorem toList_insert_stored (wellFormed : map.WellFormed) (stamp : Stamp)
    (split : map.toList = front ++ entry :: back) (value : ν) :
    (map.insert stamp entry.1 value).toList = front ++ (entry.1, value) :: back := by
  have sound : (map.insert stamp entry.1 value).WellFormed := wellFormed.insert entry.1 value
  have written := wellFormed.insert_written stamp entry.1 value
  have ordered := wellFormed.inDigitOrder
  rw [split] at written ordered
  refine eq_of_inDigitOrder sound.inDigitOrder ((inDigitOrder_congr ?_).mp ordered) ?_
  · simp only [List.map_append, List.map_cons]
  · intro code
    rw [runOf_append]
    by_cases same : hash entry.1 = code
    · subst same
      have changed : runOf (hash entry.1) ((entry.1, value) :: back) =
          (entry.1, value) :: runOf (hash entry.1) back := runOf_cons_of_eq rfl
      have distinct := wellFormed.distinct_runOf (hash entry.1)
      rw [split, runOf_append, runOf_cons_of_eq rfl] at distinct
      rw [written.run, runOf_append, runOf_cons_of_eq rfl, changed,
        Run.upsert_stored value distinct]
    · have dropped : runOf code ((entry.1, value) :: back) = runOf code back :=
        runOf_cons_of_ne same
      rw [written.others code (Ne.symm same), runOf_append, runOf_cons_of_ne same, dropped]

omit [EquivBEq κ] in
/-- A trie with the same keys in its iteration has the same shape. -/
theorem alike_of_keys {after : TrieMap κ ω} (wellFormed : map.WellFormed)
    (soundAfter : after.WellFormed) (keys : map.keys = after.keys) :
    map.root.Alike (fun run changed => run.map Prod.fst = changed.map Prod.fst) after.root := by
  have ofKeys {value : Type} (entries : List (κ × value)) (code : UInt64) :
      (runOf code entries).map Prod.fst =
        (entries.map Prod.fst).filter fun key => hash key = code := by
    rw [List.filter_map]
    rfl
  refine wellFormed.alike rfl ?_ soundAfter ?_
  · intro run changed same
    simpa using congrArg List.length same
  · intro code
    have iterated : map.toList.map Prod.fst = after.toList.map Prod.fst := keys
    rw [ofKeys, ofKeys, iterated]

end TrieMap.WellFormed

/-- A map after the value of a key was changed: the entry of the key, in its place in the
iteration, has another value, and nothing else in the iteration is different. The stored key,
the length and the shape of the trie with the keys of every leaf are those before. -/
structure ChangedInPlace (key : κ) (function : ν → ν) (map after : TrieMap κ ν) : Prop where
  entry : ∃ front stored value back,
    map.getEntry? key = some (stored, value) ∧ (stored == key) = true ∧
    map.cursor.rest = front ++ (stored, value) :: back ∧
    after.cursor.rest = front ++ (stored, function value) :: back
  found : after.getEntry? key =
    (map.getEntry? key).map fun entry => (entry.1, function entry.2)
  length : after.length = map.length
  shape : map.root.Alike (fun run changed => run.map Prod.fst = changed.map Prod.fst) after.root

/-- What an alteration amounts to, by whether the key is there and what becomes of its value. -/
structure AlteredTo (stamp : Stamp) (key : κ) (updater : Option ν → Option ν)
    (map after : TrieMap κ ν) : Prop where
  update : ∀ {old value}, map.get? key = some old → updater (some old) = some value →
    map.update? stamp key (fun _ => value) = some after
  erase : ∀ {old}, map.get? key = some old → updater (some old) = none →
    after = map.erase stamp key
  insert : ∀ {value}, map.get? key = none → updater none = some value →
    after = map.insert stamp key value
  leave : map.get? key = none → updater none = none →
    after = map ∧ after.sharesRoot map = true

namespace TrieMap.WellFormed

theorem changedInPlace_update? {stamp : Stamp} {function : ν → ν} {after : TrieMap κ ν}
    (wellFormed : map.WellFormed) (updated : map.update? stamp key function = some after) :
    ChangedInPlace key function map after := by
  rw [wellFormed.update?_eq] at updated
  obtain ⟨entry, found, rfl⟩ := Option.map_eq_some_iff.mp updated
  have sound : (map.insert stamp entry.1 (function entry.2)).WellFormed :=
    wellFormed.insert entry.1 (function entry.2)
  have written := wellFormed.insert_written stamp entry.1 (function entry.2)
  have sameHash := wellFormed.hash_of_found found
  have inRun := found
  rw [wellFormed.getEntry?_eq_find?] at inRun
  have equal := Run.key_of_find? inRun
  obtain ⟨front, back, split⟩ :=
    List.append_of_mem (mem_runOf.mp (Run.mem_of_find? inRun)).1
  have changed := wellFormed.toList_insert_stored stamp split (function entry.2)
  refine ⟨⟨front, entry.1, entry.2, back, found, equal, ?_, ?_⟩, ?_, ?_, ?_⟩
  · rw [rest_cursor, split]
  · rw [rest_cursor, changed]
  · rw [sound.getEntry?_eq_find?, ← sameHash, written.run, Run.find?_upsert, if_pos equal, found]
    rfl
  · rw [sound.length, wellFormed.length, split, changed, List.length_append, List.length_append,
      List.length_cons, List.length_cons]
  · refine wellFormed.alike_of_keys sound ?_
    rw [keys, keys, split, changed]
    simp only [List.map_append, List.map_cons]

theorem alteredTo_alter (wellFormed : map.WellFormed) (stamp : Stamp) (key : κ)
    (updater : Option ν → Option ν) :
    AlteredTo stamp key updater map (map.alter stamp key updater) := by
  refine ⟨?_, ?_, ?_, ?_⟩
  · intro old value found becomes
    obtain ⟨entry, stored, -⟩ := Option.map_eq_some_iff.mp found
    have current : (map.getEntry? key).map Prod.snd = some old := found
    rw [wellFormed.alter_eq, current, becomes, wellFormed.update?_eq, stored]
    rfl
  · intro old found becomes
    obtain ⟨entry, stored, -⟩ := Option.map_eq_some_iff.mp found
    have current : (map.getEntry? key).map Prod.snd = some old := found
    rw [wellFormed.alter_eq, current, becomes, stored]
  · intro value missing becomes
    have absent := Option.map_eq_none_iff.mp missing
    rw [wellFormed.alter_eq, absent, Option.map_none, becomes]
  · intro missing becomes
    have absent := Option.map_eq_none_iff.mp missing
    have same : map.alter stamp key updater = map := by
      rw [wellFormed.alter_eq, absent, Option.map_none, becomes]
    rw [same]
    exact ⟨rfl, Trie.same_self map.root⟩

end TrieMap.WellFormed

/-- **Updates happen in place.** Whatever the history of a map, a value can be updated exactly
if its key is there, and then only this value changes: in the iteration nothing else does, and
the stored key, the length and the shape of the trie stay. An alteration is an update, a
removal, an insertion or the map itself. -/
theorem update_in_place {pool : Pool κ} (reachable : Reachable pool) (held : ⟨ν, map⟩ ∈ pool)
    (stamp : Stamp) (key : κ) :
    (∀ function : ν → ν,
        (map.update? stamp key function).isSome = map.containsKey key ∧
          ∀ after, map.update? stamp key function = some after →
            ChangedInPlace key function map after) ∧
      ∀ updater : Option ν → Option ν,
        AlteredTo stamp key updater map (map.alter stamp key updater) := by
  have wellFormed := reachable.sound held
  refine ⟨fun function => ⟨?_, ?_⟩, wellFormed.alteredTo_alter stamp key⟩
  · rw [TrieMap.update?, Option.isSome_map, TrieMap.containsKey]
  · intro after updated
    exact wellFormed.changedInPlace_update? updated

omit [BEq κ] [Hashable κ] [EquivBEq κ] in
/-- Three keys of one hash, asked for by a key whose label is another one. The second of the
three keeps its label and its place in the run, whether it is updated or altered; without it
the run closes up. -/
theorem update_in_place_of_collisions :
    let map : TrieMap Script.Key Nat := .ofList (.ofNat 0)
      [(.custom 7 1 "a", 1), (.custom 7 2 "b", 2), (.custom 7 3 "c", 3), (.int 0, 4)]
    let key : Script.Key := .custom 7 2 "other"
    let after := map.alter (.ofNat 1) key (·.map (· + 5))
    ChangedInPlace key (fun _ => 7) map after ∧
      AlteredTo (.ofNat 1) key (fun _ => none) map (map.alter (.ofNat 1) key fun _ => none) ∧
      map.getEntry? key = some (.custom 7 2 "b", 2) ∧
      after.getEntry? key = some (.custom 7 2 "b", 7) ∧
      after.values = map.values.map (fun value => if value = 2 then 7 else value) ∧
      (map.alter (.ofNat 1) key fun _ => none).values = map.values.filter (· ≠ 2) := by
  intro map key after
  have reachable : Reachable [⟨Nat, map⟩] := .ofList _ _
  have updates := update_in_place reachable List.mem_cons_self (.ofNat 1) key
  have stored : map.getEntry? (.custom 7 2 "other") = some (.custom 7 2 "b", 2) := rfl
  have found : map.get? key = some 2 := congrArg (Option.map Prod.snd) stored
  have changed := (updates.1 fun _ => 7).2 after ((updates.2 (·.map (· + 5))).update found rfl)
  refine ⟨changed, updates.2 _, stored, ?_, by decide +kernel, by decide +kernel⟩
  rw [changed.found, stored]
  rfl

end HashTrie
