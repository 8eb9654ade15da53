import HashTrie.Proofs.CanonicalForm
import HashTrie.Proofs.Documents
import HashTrie.Proofs.Enumeration
import HashTrie.Proofs.Rebuilding

/-!
# Documents of maps and sets

What a format does to the items of a document is its own affair; all that is asked of it is that
it hands back the items that it was given (`Format.HandsBack`), as JSON text does
(`Script.Document.documents_handBack`). A container that is read from its own document is then a
replica of the one that was written, node by node, however the written one came about
(`restored_of_reachable`): documents hold the items in iteration order, and collecting them in
that order gives the trie again. A document that no container wrote may repeat a key; then the
last entry under the key counts.
-/

namespace HashTrie

namespace Format

variable {δ ε α : Type}

/-- Documents that keep the items as they are, behind their number. One with a wrong number
fails. -/
def counted : Format (Nat × List α) String α where
  write count items := (count, items)
  read document := if document.1 = document.2.length then .ok document.2 else .error "wrong number"

theorem counted_handsBack (items : List α) : counted.HandsBack items := if_pos rfl

end Format

variable {κ ν δ ε : Type} [BEq κ] [Hashable κ]

/-- The number that is announced for the elements of a set is the number of its elements. -/
theorem TrieSet.remaining_cursor {set : TrieSet κ} (sound : set.map.WellFormed) :
    set.cursor.remaining = set.toList.length := by
  rw [toList, TrieMap.keys, List.length_map]
  exact sound.counted_cursor.2

theorem TrieMap.read_eq {format : Format δ ε (κ × ν)} {document : δ} {entries : List (κ × ν)}
    (stamp : Stamp) (given : format.read document = .ok entries) :
    read format stamp document = .ok (ofList stamp entries) := by
  rw [read, given]
  rfl

theorem TrieSet.read_eq {format : Format δ ε κ} {document : δ} {elements : List κ}
    (stamp : Stamp) (given : format.read document = .ok elements) :
    read format stamp document = .ok (ofList stamp elements) := by
  rw [read, given]
  rfl

/-- The elements of a set carry nothing else. -/
theorem TrieSet.ofList_toList (stamp : Stamp) (set : TrieSet κ) :
    ofList stamp set.toList = ⟨.ofList stamp set.map.toList⟩ := by
  have whole : set.toList.map (fun element => (element, ())) = set.map.toList := by
    rw [toList, TrieMap.keys, List.map_map]
    exact List.map_id _
  rw [ofList, whole]

/-- **Documents restore what was written.** Whatever format hands back the items of a reachable
map or set, its document is read as a replica, with the same nodes, length and iteration. The
entries of any document are inserted in their order, so that the last one under a key counts. -/
theorem restored_of_reachable [EquivBEq κ] [LawfulHashable κ] {pool : Pool κ}
    (reachable : Reachable pool) (stamp : Stamp) :
    (∀ {ν δ ε : Type} {map : TrieMap κ ν} (format : Format δ ε (κ × ν)), ⟨ν, map⟩ ∈ pool →
        format.HandsBack map.toList →
          ∃ restored, TrieMap.read format stamp (map.write format) = .ok restored ∧
            restored.Replica map) ∧
      (∀ {δ ε : Type} {set : TrieSet κ} (format : Format δ ε κ), ⟨Unit, set.map⟩ ∈ pool →
        format.HandsBack set.toList →
          ∃ restored, TrieSet.read format stamp (set.write format) = .ok restored ∧
            restored.map.Replica set.map) ∧
      ∀ {ν δ ε : Type} (format : Format δ ε (κ × ν)) {document : δ} {entries : List (κ × ν)},
        format.read document = .ok entries →
          ∃ restored, TrieMap.read format stamp document = .ok restored ∧
            restored = entries.foldl (fun map entry => map.insert stamp entry.1 entry.2) .empty ∧
            LastWins entries restored := by
  refine ⟨?_, ?_, ?_⟩
  · intro ν δ ε map format held handed
    have sound := reachable.sound held
    rw [Format.HandsBack, ← sound.length] at handed
    exact ⟨_, TrieMap.read_eq stamp handed, sound.replica_ofList stamp⟩
  · intro δ ε set format held handed
    have sound := reachable.sound held
    rw [Format.HandsBack, ← TrieSet.remaining_cursor sound] at handed
    refine ⟨_, TrieSet.read_eq stamp handed, ?_⟩
    rw [TrieSet.ofList_toList]
    exact sound.replica_ofList stamp
  · intro ν δ ε format document entries given
    exact ⟨_, TrieMap.read_eq stamp given, rfl, TrieMap.lastWins_ofList stamp entries⟩

omit [BEq κ] [Hashable κ] in
/-- In a map that was united and cut back the key 2^64 stands before the key 0, which has the
same hash and was there first. A document that keeps the entries gives this order again, for the
map and for the set of its keys. JSON text is written in the order of the hashes and gives the
map again; where it repeats a name, the last value counts. -/
theorem restored_of_collisions :
    let twin := 0x10000000000000000
    let first : TrieMap Nat Nat := .ofList (.ofNat 0) [(1, 1), (0, 2)]
    let second : TrieMap Nat Nat := .ofList (.ofNat 1) [(32, 3), (twin, 4)]
    let whole := first.merge (.ofNat 2) second
    let map := whole.erase (.ofNat 3) 1
    let keys := map.keySet (.ofNat 4)
    let numbered : TrieMap Script.Key String :=
      .ofList (.ofNat 0) [(.int 7, "seven"), (.int (-3), "minus three"), (.int 1, "one")]
    let json := Script.Document.intToTextFormat
    let scores := Script.Document.textToIntFormat
    let text := scores.write 3 [(.text "a", 1), (.text "b", 2), (.text "a", 3)]
    (map.toList = [(twin, 4), (0, 2), (32, 3)] ∧
        ∃ restored, TrieMap.read .counted (.ofNat 5) (map.write .counted) = .ok restored ∧
          restored.Replica map) ∧
      (∃ restored, TrieSet.read .counted (.ofNat 5) (keys.write .counted) = .ok restored ∧
        restored.map.Replica keys.map) ∧
      (numbered.toList = [(.int (-3), "minus three"), (.int 1, "one"), (.int 7, "seven")] ∧
        ∃ restored, TrieMap.read json (.ofNat 5) (numbered.write json) = .ok restored ∧
          restored.Replica numbered) ∧
      ∃ restored, TrieMap.read scores (.ofNat 5) text = .ok restored ∧
        restored.getEntry? (.text "a") = some (.text "a", 3) := by
  intro twin first second whole map keys numbered json scores text
  have one : Reachable [⟨Nat, first⟩] := .ofList _ _
  have two : Reachable [⟨Nat, second⟩, ⟨Nat, first⟩] := .cons one (by decide) (.ofList _)
  have three : Reachable [⟨Nat, whole⟩, ⟨Nat, second⟩, ⟨Nat, first⟩] :=
    .cons two (by decide) (.merge (.tail _ List.mem_cons_self) List.mem_cons_self)
  have four : Reachable [⟨Nat, map⟩, ⟨Nat, whole⟩, ⟨Nat, second⟩, ⟨Nat, first⟩] :=
    .cons three (by decide) (.erase List.mem_cons_self 1)
  have five : Reachable
      [⟨Unit, keys.map⟩, ⟨Nat, map⟩, ⟨Nat, whole⟩, ⟨Nat, second⟩, ⟨Nat, first⟩] :=
    .cons four (by decide) (.keySet List.mem_cons_self)
  have alone : Reachable [⟨String, numbered⟩] := .ofList _ _
  have listed : numbered.toList =
      [(.int (-3), "minus three"), (.int 1, "one"), (.int 7, "seven")] := rfl
  have handed : json.HandsBack numbered.toList :=
    (Script.Document.reads_intEntries Json.Decoder.reads_text
      [(-3, "minus three"), (1, "one"), (7, "seven")]).run
  have given : scores.read text = .ok [(.text "a", 1), (.text "b", 2), (.text "a", 3)] :=
    (Script.Document.reads_textEntries Json.Decoder.reads_int64
      [("a", 1), ("b", 2), ("a", 3)]).run
  obtain ⟨maps, sets, -⟩ := restored_of_reachable five (.ofNat 5)
  obtain ⟨objects, -, texts⟩ := restored_of_reachable alone (.ofNat 5)
  refine ⟨⟨by decide, ?_⟩, ?_, ⟨listed, ?_⟩, ?_⟩
  · exact maps .counted (.tail _ List.mem_cons_self) (Format.counted_handsBack _)
  · exact sets .counted List.mem_cons_self (Format.counted_handsBack _)
  · exact objects json List.mem_cons_self handed
  · obtain ⟨restored, read, -, last⟩ := texts scores given
    have stored := last.getEntry? (.text "a")
    exact ⟨restored, read, stored.trans rfl⟩

end HashTrie
