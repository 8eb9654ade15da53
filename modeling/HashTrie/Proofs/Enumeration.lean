import HashTrie.Proofs.Cursors
import HashTrie.Proofs.Identity

/-!
# Enumeration by steps

An iteration enumerates a list if its calls hand out the items of the list one by one and its
count of the items to come is right before each call (`Iteration.Enumerates`). That follows
from a relation to lists which one call keeps (`Iteration.Tracks`). For a cursor the relation
says that the current run and what is below the stack are the items, and that the count,
which only goes down, is their number. A call is a loop over the stack (`Cursor.Call`), and
the relation is also what makes sure that the count is positive when it goes down. Both ways
to iterate over a map enumerate its entries in order (`iterations_enumerate`).
-/

namespace HashTrie

namespace Iteration

variable {σ α : Type} [Iteration σ α] {state : σ} {items : List α}

/-- What the calls for the next item hand out, after any number of calls. -/
structure Enumerates (state : σ) (items : List α) : Prop where
  taken : ∀ count, (take count state).1 = items.take count
  next : ∀ count, (Iteration.next (skip count state)).1 = items[count]?
  remaining : ∀ count, Iteration.remaining (skip count state) = items.length - count
  rest : ∀ count, Iteration.rest (skip count state) = items.drop count

/-- A relation between iterations and the items they have still to hand out. -/
structure Tracks (ahead : σ → List α → Prop) : Prop where
  next : ∀ {state items}, ahead state items → (Iteration.next state).1 = items.head?
  tail : ∀ {state items}, ahead state items → ahead (Iteration.next state).2 items.tail
  remaining : ∀ {state items}, ahead state items → Iteration.remaining state = items.length
  rest : ∀ {state items}, ahead state items → Iteration.rest state = items

namespace Tracks

variable {ahead : σ → List α → Prop}

theorem skip (tracks : Tracks ahead) (held : ahead state items) (count : Nat) :
    ahead (skip count state) (items.drop count) := by
  induction count generalizing state items with
  | zero => exact held
  | succ count ih =>
      have later := ih (tracks.tail held)
      rwa [List.drop_tail] at later

theorem taken (tracks : Tracks ahead) (held : ahead state items) (count : Nat) :
    (take count state).1 = items.take count := by
  induction count generalizing state items with
  | zero => rfl
  | succ count ih =>
      have first := tracks.next held
      have later := ih (tracks.tail held)
      rw [take]
      rcases called : Iteration.next state with ⟨item, after⟩
      rw [called] at first later
      cases items with
      | nil =>
          obtain rfl : item = none := first
          rfl
      | cons head items =>
          obtain rfl : item = some head := first
          exact congrArg (head :: ·) later

/-- **From one call to all.** What one call keeps, any number of calls keep. -/
theorem enumerates (tracks : Tracks ahead) (held : ahead state items) :
    Enumerates state items := by
  refine ⟨tracks.taken held, ?_, ?_, ?_⟩
  · intro count
    rw [tracks.next (tracks.skip held count), List.head?_drop]
  · intro count
    rw [tracks.remaining (tracks.skip held count), List.length_drop]
  · intro count
    exact tracks.rest (tracks.skip held count)

end Tracks

/-- Beyond the last item no call hands out anything, and nothing is counted. -/
theorem Enumerates.ended (enumerates : Enumerates state items) {count : Nat}
    (beyond : items.length ≤ count) :
    (Iteration.next (skip count state)).1 = none ∧
      Iteration.remaining (skip count state) = 0 := by
  rw [enumerates.next, enumerates.remaining]
  exact ⟨List.getElem?_eq_none beyond, Nat.sub_eq_zero_of_le beyond⟩

end Iteration

open Iteration (skip Enumerates Tracks)

variable {κ ν : Type}

namespace Trie

namespace Cursor

variable {cursor : Cursor κ ν} {stack after : List (List (Trie κ ν))} {entry : κ × ν}
  {run : Run κ ν} {remaining : Nat}

/-- The entries that a cursor has still to meet. -/
def ahead (cursor : Cursor κ ν) : List (κ × ν) := cursor.run ++ pending cursor.stack

/-- The count of a cursor is the number of the entries that it has still to meet. -/
def Counted (cursor : Cursor κ ν) (items : List (κ × ν)) : Prop :=
  cursor.ahead = items ∧ cursor.remaining = items.length

theorem ahead_start (root : Trie κ ν) : (start root).ahead = root.toList := by
  have entered := pending_descend [] root
  rwa [pending_nil, List.append_nil] at entered

/-- One call for the next entry, as a loop: a branch without unvisited children is left, any
other child is entered, and the call ends at an entry or at the bottom of the stack. At an
entry the count goes down by exactly one, so it has to be positive there. -/
inductive Call : Cursor κ ν → Option (κ × ν) × Cursor κ ν → Prop
  | yield {stack : List (List (Trie κ ν))} {entry : κ × ν} {run : Run κ ν} {remaining : Nat} :
      Call ⟨stack, entry :: run, remaining + 1⟩ (some entry, ⟨stack, run, remaining⟩)
  | finish {remaining : Nat} : Call ⟨[], [], remaining⟩ (none, ⟨[], [], remaining⟩)
  | leave {stack : List (List (Trie κ ν))} {remaining : Nat}
      {outcome : Option (κ × ν) × Cursor κ ν} (further : Call ⟨stack, [], remaining⟩ outcome) :
      Call ⟨[] :: stack, [], remaining⟩ outcome
  | enter {child : Trie κ ν} {children : List (Trie κ ν)} {stack : List (List (Trie κ ν))}
      {remaining : Nat} {outcome : Option (κ × ν) × Cursor κ ν}
      (further : Call ⟨(descend (children :: stack) child).1,
        (descend (children :: stack) child).2, remaining⟩ outcome) :
      Call ⟨(child :: children) :: stack, [], remaining⟩ outcome

theorem call_of_advance_some (found : advance stack = some (entry, after, run)) :
    Call ⟨stack, [], remaining + 1⟩ (some entry, ⟨after, run, remaining⟩) := by
  fun_induction advance stack with
  | case1 => cases found
  | case2 stack ih => exact .leave (ih found)
  | case3 child children stack first rest entered =>
      cases found
      refine .enter ?_
      rw [entered]
      exact .yield
  | case4 child children stack entered ih =>
      refine .enter ?_
      rw [entered]
      exact ih found

theorem call_of_advance_none (nothing : advance stack = none) :
    Call ⟨stack, [], remaining⟩ (none, ⟨[], [], remaining⟩) := by
  fun_induction advance stack with
  | case1 => exact .finish
  | case2 stack ih => exact .leave (ih nothing)
  | case3 => cases nothing
  | case4 child children stack entered ih =>
      refine .enter ?_
      rw [entered]
      exact ih nothing

/-- **Each call ends.** From a cursor that counts what is ahead, the loop comes to an end with
the outcome of `next`, and the count does not pass zero. -/
theorem call_next {items : List (κ × ν)} (counted : cursor.Counted items) :
    Call cursor cursor.next := by
  obtain ⟨stack, run, remaining⟩ := cursor
  obtain ⟨rfl, number⟩ := counted
  cases run with
  | cons entry run =>
      obtain ⟨fewer, rfl⟩ : ∃ fewer, remaining = fewer + 1 := ⟨_, number⟩
      exact .yield
  | nil =>
      rw [next]
      cases found : advance stack with
      | none => exact call_of_advance_none found
      | some outcome =>
          obtain ⟨entry, after, run⟩ := outcome
          have more : remaining = (entry :: (run ++ pending after)).length := by
            rw [← pending_of_advance_some found]
            exact number
          obtain ⟨fewer, rfl⟩ : ∃ fewer, remaining = fewer + 1 := ⟨_, more⟩
          exact call_of_advance_some found

/-- A call hands out the first entry ahead, leaves the others, and counts. -/
theorem Call.ahead_eq {outcome : Option (κ × ν) × Cursor κ ν} (call : Call cursor outcome) :
    outcome.1 = cursor.ahead.head? ∧ outcome.2.ahead = cursor.ahead.tail ∧
      cursor.remaining = outcome.2.remaining + outcome.1.toList.length := by
  induction call with
  | yield => exact ⟨rfl, rfl, rfl⟩
  | finish => exact ⟨rfl, rfl, rfl⟩
  | @leave stack remaining outcome _ ih =>
      have same : ahead ⟨[] :: stack, [], remaining⟩ = ahead ⟨stack, [], remaining⟩ :=
        pending_cons [] stack
      rw [same]
      exact ih
  | @enter child children stack remaining outcome _ ih =>
      have same : ahead ⟨(child :: children) :: stack, [], remaining⟩ =
          ahead ⟨(descend (children :: stack) child).1, (descend (children :: stack) child).2,
            remaining⟩ := pending_enter child children stack
      rw [same]
      exact ih

/-- The outcome of a call is no other than that of `next`. -/
theorem Call.eq_next {outcome : Option (κ × ν) × Cursor κ ν} (call : Call cursor outcome) :
    outcome = cursor.next := by
  induction call with
  | yield => rfl
  | finish =>
      rw [next, advance]
  | @leave stack remaining outcome _ ih =>
      rw [ih, next, next, advance]
  | @enter child children stack remaining outcome _ ih =>
      rw [ih, next, next, advance]
      cases entered : (descend (children :: stack) child).2 <;> rfl

/-- What is ahead of a cursor, and its count, after each call. -/
theorem tracks_counted : Tracks (Counted (κ := κ) (ν := ν)) := by
  refine ⟨?_, ?_, ?_, ?_⟩
  · rintro cursor items counted
    rw [← counted.1]
    exact (call_next counted).ahead_eq.1
  · rintro cursor items counted
    obtain ⟨first, later, count⟩ := (call_next counted).ahead_eq
    rw [counted.1] at first later
    rw [counted.2, first] at count
    refine ⟨later, ?_⟩
    cases items with
    | nil => exact count.symm
    | cons head items => exact (Nat.succ.inj count).symm
  · exact fun counted => counted.2
  · rintro cursor items counted
    rw [← counted.1]
    exact restFrom_eq cursor.stack cursor.run

end Cursor

/-- Gathered entries are handed out in the order in which they were gathered. -/
theorem Gathered.tracks_entries :
    Tracks fun (gathered : Gathered κ ν) items => gathered.entries = items := by
  refine ⟨?_, ?_, ?_, ?_⟩
  · rintro ⟨entries⟩ _ rfl
    cases entries <;> rfl
  · rintro ⟨entries⟩ _ rfl
    cases entries <;> rfl
  · rintro ⟨entries⟩ _ rfl
    rfl
  · rintro ⟨entries⟩ _ rfl
    rfl

/-- The entries of a branch are those of its children, slot by slot. -/
theorem WellFormed.toList_branch [BEq κ] [Hashable κ] {depth size : Nat} {stamp : Stamp}
    {bitmap : Bitmap} {children : List (Trie κ ν)}
    (wellFormed : WellFormed depth (.branch stamp bitmap size children)) :
    (Trie.branch stamp bitmap size children).toList =
      (List.finRange 32).flatMap (entriesAt bitmap children) :=
  toLists_eq_flatMap_entriesAt wellFormed.placed.full

end Trie

namespace TrieMap

variable {map : TrieMap κ ν}

theorem WellFormed.counted_cursor [BEq κ] [Hashable κ] (wellFormed : map.WellFormed) :
    map.cursor.Counted map.toList := by
  refine ⟨Trie.Cursor.ahead_start map.root, ?_⟩
  have size : map.cursor.remaining = map.root.size := rfl
  rw [size, toList]
  rcases wellFormed.root with nothing | sound
  · rw [nothing]
    rfl
  · exact sound.size_eq_length

theorem enumerates_gathered (map : TrieMap κ ν) : Enumerates map.gathered map.toList :=
  Trie.Gathered.tracks_entries.enumerates map.rest_cursor

end TrieMap

/-- **Iterations enumerate a map.** Whatever the history of a map, the calls on its cursor hand
out its entries one by one in the order of the trie: slot by slot at each branch, in the order
of the run at each leaf. Each call comes to an end, and before each call the count of the
entries to come is right, so it is positive wherever it goes down. A copy that is made between
two calls enumerates the same rest, and beyond the last entry every call gives nothing and
leaves the count at zero. Iterating over gathered copies of the entries is no different. -/
theorem iterations_enumerate [BEq κ] [Hashable κ] [EquivBEq κ] {pool : Pool κ}
    {map : TrieMap κ ν} (reachable : Reachable pool) (held : ⟨ν, map⟩ ∈ pool) :
    (Enumerates map.cursor map.toList ∧ Enumerates map.gathered map.toList ∧
        map.length = map.toList.length) ∧
      (∀ count,
        (∀ outcome, (skip count map.cursor).Call outcome ↔
          outcome = (skip count map.cursor).next) ∧
        Enumerates (skip count map.cursor).copy (map.toList.drop count)) ∧
      (∀ count, map.length ≤ count →
        ((skip count map.cursor).next.1 = none ∧ (skip count map.cursor).remaining = 0) ∧
        (skip count map.gathered).next.1 = none ∧ (skip count map.gathered).remaining = 0) ∧
      ∀ path stamp bitmap size children,
        map.root.nodeAt? path = some (.branch stamp bitmap size children) →
          (Trie.branch stamp bitmap size children).toList =
            (List.finRange 32).flatMap (Trie.entriesAt bitmap children) := by
  have wellFormed := reachable.sound held
  have tracks := Trie.Cursor.tracks_counted (κ := κ) (ν := ν)
  have counted := wellFormed.counted_cursor
  refine ⟨⟨tracks.enumerates counted, map.enumerates_gathered, wellFormed.length⟩, ?_, ?_, ?_⟩
  · intro count
    have later := tracks.skip counted count
    refine ⟨fun outcome => ⟨Trie.Cursor.Call.eq_next, ?_⟩, tracks.enumerates later⟩
    rintro rfl
    exact Trie.Cursor.call_next later
  · intro count beyond
    rw [wellFormed.length] at beyond
    exact ⟨(tracks.enumerates counted).ended beyond, map.enumerates_gathered.ended beyond⟩
  · intro path stamp bitmap size children found
    rcases wellFormed.root with nothing | sound
    · rw [nothing] at found
      cases path <;> cases found
    · exact (sound.nodeAt? found).toList_branch

/-- The keys 0 and 2^64 have one hash, and 32 shares the first digit with them, so the cursor
goes down two levels, through a run of two, and up again before it comes to 1. -/
theorem iterations_enumerate_of_collisions :
    let twin := 0x10000000000000000
    let map : TrieMap Nat Nat := .ofList (.ofNat 0) [(1, 4), (0, 1), (32, 2), (twin, 3)]
    let entries := [(0, 1), (twin, 3), (32, 2), (1, 4)]
    Enumerates map.cursor entries ∧ Enumerates map.gathered entries ∧
      (skip 2 map.cursor).Call (skip 2 map.cursor).next ∧
      Enumerates (skip 2 map.cursor).copy [(32, 2), (1, 4)] ∧
      (skip 7 map.cursor).next.1 = none ∧ (skip 7 map.cursor).remaining = 0 := by
  intro twin map entries
  have reachable : Reachable [⟨Nat, map⟩] := .ofList _ _
  have listed : map.toList = entries := by decide
  have enumerate := iterations_enumerate reachable List.mem_cons_self
  rw [listed] at enumerate
  obtain ⟨⟨ofCursor, ofGathered, -⟩, midway, beyond, -⟩ := enumerate
  exact ⟨ofCursor, ofGathered, ((midway 2).1 _).mpr rfl, (midway 2).2,
    (beyond 7 (by decide)).1⟩

end HashTrie
