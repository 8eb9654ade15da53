import HashTrie.Run
import Mathlib.Tactic.ByContra

/-!
# Entries with unequal keys

What searching, writing and taking out do to a list of entries: after a write, the
search for any key (`find?_upsert`), after taking out, the entries that are left
(`eq_filter_of_erase?`); and how a list splits into the runs of the single hashes
(`runOf`). A list whose keys are pairwise unequal is itself such a run as far as
searching goes, so the same lemmas serve leaves and whole tries.
-/

namespace HashTrie

/-- Two entries have equal keys. -/
def SameKey {κ ν ω : Type} [BEq κ] (first : κ × ν) (second : κ × ω) : Prop :=
  (first.1 == second.1) = true

instance {κ ν ω : Type} [BEq κ] (first : κ × ν) (second : κ × ω) :
    Decidable (SameKey first second) :=
  inferInstanceAs (Decidable (_ = true))

namespace Run

variable {κ ν : Type} [BEq κ]

/-- No two keys of a list of entries are equal. -/
def Distinct (run : Run κ ν) : Prop :=
  run.Pairwise fun first second => (first.1 == second.1) = false

instance (run : Run κ ν) : Decidable run.Distinct :=
  inferInstanceAs (Decidable (run.Pairwise fun first second => (first.1 == second.1) = false))

theorem distinct_cons {entry : κ × ν} {run : Run κ ν} : Distinct (entry :: run) ↔
    (∀ other ∈ run, (entry.1 == other.1) = false) ∧ Distinct run :=
  List.pairwise_cons

/-- Whether keys are unequal does not depend on the order of the entries. -/
theorem Distinct.of_perm [EquivBEq κ] {run other : Run κ ν} (distinct : run.Distinct)
    (order : other.Perm run) : other.Distinct :=
  (order.pairwise_iff fun apart => BEq.comm.trans apart).mpr distinct

/-- What follows an entry with a key under which nothing else is stored. -/
theorem unequal_of_head [EquivBEq κ] {entry : κ × ν} {run : Run κ ν} {key : κ}
    (unequal : ∀ other ∈ run, (entry.1 == other.1) = false) (equal : (entry.1 == key) = true) :
    ∀ other ∈ run, (other.1 == key) = false := by
  intro other member
  rw [BEq.comm, ← BEq.congr_left equal]
  exact unequal other member

@[simp] theorem find?_nil (key : κ) : find? ([] : Run κ ν) key = none := rfl

theorem find?_cons (entry : κ × ν) (run : Run κ ν) (key : κ) :
    find? (entry :: run) key = if entry.1 == key then some entry else find? run key := by
  rw [find?, List.find?_cons]
  cases entry.1 == key <;> rfl

theorem mem_of_find? {run : Run κ ν} {key : κ} {entry : κ × ν}
    (found : run.find? key = some entry) : entry ∈ run :=
  List.mem_of_find?_eq_some found

theorem key_of_find? {run : Run κ ν} {key : κ} {entry : κ × ν}
    (found : run.find? key = some entry) : (entry.1 == key) = true := by
  simpa using List.find?_some found

theorem find?_eq_none_iff {run : Run κ ν} {key : κ} :
    run.find? key = none ↔ ∀ entry ∈ run, (entry.1 == key) = false := by
  simp [find?]

section Upsert

variable (key : κ) (resolve : Option ν → ν)

theorem upsert_cons_of_eq {entry : κ × ν} (run : Run κ ν) (equal : (entry.1 == key) = true) :
    upsert key resolve (entry :: run) = ((key, resolve (some entry.2)) :: run, false) := by
  simp [upsert, equal]

theorem upsert_cons_of_ne {entry : κ × ν} (run : Run κ ν) (unequal : (entry.1 == key) = false) :
    upsert key resolve (entry :: run) =
      (entry :: (upsert key resolve run).1, (upsert key resolve run).2) := by
  simp [upsert, unequal]

/-- A key counts as new exactly if it was not found. -/
theorem upsert_added (run : Run κ ν) : (run.upsert key resolve).2 = (run.find? key).isNone := by
  induction run with
  | nil => rfl
  | cons entry run ih =>
      rw [find?_cons]
      cases equal : entry.1 == key with
      | true => simp [upsert_cons_of_eq key resolve run equal]
      | false => simp [upsert_cons_of_ne key resolve run equal, ih]

theorem length_upsert (run : Run κ ν) : (run.upsert key resolve).1.length =
    run.length + if (run.upsert key resolve).2 then 1 else 0 := by
  induction run with
  | nil => rfl
  | cons entry run ih =>
      cases equal : entry.1 == key with
      | true => simp [upsert_cons_of_eq key resolve run equal]
      | false =>
          simp only [upsert_cons_of_ne key resolve run equal, List.length_cons, ih]
          omega

/-- A new key goes to the end. -/
theorem upsert_of_new {run : Run κ ν} (new : ∀ entry ∈ run, (entry.1 == key) = false) :
    (run.upsert key resolve).1 = run ++ [(key, resolve none)] := by
  induction run with
  | nil => rfl
  | cons entry run ih =>
      rw [upsert_cons_of_ne key resolve run (new entry List.mem_cons_self),
        ih fun other member => new other (List.mem_cons_of_mem _ member), List.cons_append]

theorem upsert_ne_nil (run : Run κ ν) : (run.upsert key resolve).1 ≠ [] := by
  cases run with
  | nil => simp [upsert]
  | cons entry run =>
      cases equal : entry.1 == key with
      | true => simp [upsert_cons_of_eq key resolve run equal]
      | false => simp [upsert_cons_of_ne key resolve run equal]

/-- Writing brings in no key but the one written. -/
theorem key_mem_of_mem_upsert {run : Run κ ν} {entry : κ × ν}
    (member : entry ∈ (run.upsert key resolve).1) : entry.1 = key ∨ entry ∈ run := by
  induction run with
  | nil => exact .inl (by simp_all [upsert])
  | cons head run ih =>
      cases equal : head.1 == key with
      | true =>
          rw [upsert_cons_of_eq key resolve run equal] at member
          rcases List.mem_cons.mp member with rfl | member
          · exact .inl rfl
          · exact .inr (List.mem_cons_of_mem _ member)
      | false =>
          rw [upsert_cons_of_ne key resolve run equal] at member
          rcases List.mem_cons.mp member with rfl | member
          · exact .inr List.mem_cons_self
          · exact (ih member).imp_right (List.mem_cons_of_mem _)

/-- Writing before or after leaving out keys, where equal keys are left out together. -/
theorem filter_upsert (keep : κ → Bool)
    (respects : ∀ {first second : κ}, (first == second) = true → keep first = keep second)
    (run : Run κ ν) : (run.upsert key resolve).1.filter (fun entry => keep entry.1) =
      if keep key then (Run.upsert key resolve (run.filter fun entry => keep entry.1)).1
      else run.filter fun entry => keep entry.1 := by
  induction run with
  | nil => cases kept : keep key <;> simp [upsert, kept]
  | cons entry run ih =>
      cases equal : entry.1 == key with
      | true =>
          rw [upsert_cons_of_eq key resolve run equal]
          cases kept : keep key with
          | false => simp [respects equal, kept]
          | true => simp [respects equal, kept, upsert_cons_of_eq key resolve _ equal]
      | false =>
          rw [upsert_cons_of_ne key resolve run equal, List.filter_cons, List.filter_cons, ih]
          cases keep entry.1 with
          | false => rfl
          | true =>
              rw [if_pos rfl, if_pos rfl, upsert_cons_of_ne key resolve _ equal]
              split <;> rfl

/-- Entries under new keys, written one after another, go to the end in their order. -/
theorem foldl_of_new {write : Run κ ν → κ × ν → Run κ ν}
    (appends : ∀ run entry, (∀ stored ∈ run, (stored.1 == entry.1) = false) →
      write run entry = run ++ [entry])
    {run source : Run κ ν} (distinct : (run ++ source).Distinct) :
    source.foldl write run = run ++ source := by
  induction source generalizing run with
  | nil => exact (List.append_nil run).symm
  | cons entry source ih =>
      have apart := (List.pairwise_append.mp distinct).2.2
      have written := appends run entry fun stored member =>
        apart stored member entry List.mem_cons_self
      rw [List.append_cons] at distinct ⊢
      rw [List.foldl_cons, written]
      exact ih distinct

variable [EquivBEq κ]

/-- After writing a key is found with the value written, and every other key as
before. -/
theorem find?_upsert (run : Run κ ν) (probe : κ) : (run.upsert key resolve).1.find? probe =
    if key == probe then some (key, resolve ((run.find? key).map Prod.snd))
    else run.find? probe := by
  induction run with
  | nil => simp [upsert, find?_cons]
  | cons entry run ih =>
      cases equal : entry.1 == key with
      | true =>
          have same : (entry.1 == probe) = (key == probe) := BEq.congr_left equal
          rw [upsert_cons_of_eq key resolve run equal, find?_cons, find?_cons, find?_cons, equal,
            same]
          cases key == probe <;> rfl
      | false =>
          rw [upsert_cons_of_ne key resolve run equal, find?_cons, ih, find?_cons, find?_cons,
            equal]
          cases atProbe : entry.1 == probe with
          | true =>
              have different : (key == probe) = false := by
                rw [← BEq.congr_right atProbe, BEq.comm]
                exact equal
              simp [different]
          | false => simp

/-- Writing keeps the keys pairwise unequal. -/
theorem Distinct.upsert {run : Run κ ν} (distinct : run.Distinct) :
    (run.upsert key resolve).1.Distinct := by
  induction run with
  | nil => exact List.pairwise_singleton _ _
  | cons entry run ih =>
      obtain ⟨unequal, distinct⟩ := distinct_cons.mp distinct
      cases equal : entry.1 == key with
      | true =>
          rw [upsert_cons_of_eq key resolve run equal]
          refine distinct_cons.mpr ⟨?_, distinct⟩
          intro other member
          exact BEq.congr_left equal ▸ unequal other member
      | false =>
          rw [upsert_cons_of_ne key resolve run equal]
          refine distinct_cons.mpr ⟨?_, ih distinct⟩
          intro other member
          rcases key_mem_of_mem_upsert key resolve member with same | member
          · rw [same]
            exact equal
          · exact unequal other member

/-- Writing under a key that is there rewrites its entry, and writing under a new key
adds an entry at the end. -/
theorem upsert_eq {run : Run κ ν} (distinct : run.Distinct) (value : ν) :
    (run.upsert key fun _ => value).1 =
      if (run.find? key).isSome then
        run.map fun entry => if entry.1 == key then (key, value) else entry
      else run ++ [(key, value)] := by
  induction run with
  | nil => rfl
  | cons entry run ih =>
      obtain ⟨unequal, distinct⟩ := distinct_cons.mp distinct
      rw [find?_cons, List.map_cons]
      cases equal : entry.1 == key with
      | true =>
          have kept : run.map (fun other => if other.1 == key then (key, value) else other) =
              run.map id := by
            refine List.map_congr_left ?_
            intro other member
            rw [unequal_of_head unequal equal other member]
            rfl
          rw [upsert_cons_of_eq key _ run equal, kept]
          simp
      | false =>
          rw [upsert_cons_of_ne key _ run equal]
          simp only [ih distinct, Bool.false_eq_true, if_false]
          split <;> rfl

end Upsert

section Erase

variable {key : κ} {run shorter : Run κ ν}

theorem erase?_cons_of_eq {entry : κ × ν} (run : Run κ ν) (equal : (entry.1 == key) = true) :
    erase? key (entry :: run) = some run := by
  simp [erase?, equal]

theorem erase?_cons_of_ne {entry : κ × ν} (run : Run κ ν) (unequal : (entry.1 == key) = false) :
    erase? key (entry :: run) = (erase? key run).map (entry :: ·) := by
  simp [erase?, unequal]

/-- Taking out a key that was written as a new one gives the run as it was. -/
theorem erase?_upsert_of_new [ReflBEq κ] {resolve : Option ν → ν}
    (new : ∀ entry ∈ run, (entry.1 == key) = false) :
    (run.upsert key resolve).1.erase? key = some run := by
  rw [upsert_of_new key resolve new]
  induction run with
  | nil => exact erase?_cons_of_eq [] BEq.rfl
  | cons entry run ih =>
      rw [List.cons_append, erase?_cons_of_ne _ (new entry List.mem_cons_self),
        ih fun other member => new other (.tail _ member)]
      rfl

/-- Nothing is taken out exactly if the key is not found. -/
theorem erase?_eq_none_iff : run.erase? key = none ↔ run.find? key = none := by
  induction run with
  | nil => simp [erase?]
  | cons entry run ih =>
      rw [find?_cons]
      cases equal : entry.1 == key with
      | true => simp [erase?_cons_of_eq run equal]
      | false => simpa [erase?_cons_of_ne run equal] using ih

theorem sublist_of_erase? (erased : run.erase? key = some shorter) : shorter.Sublist run := by
  induction run generalizing shorter with
  | nil => simp [erase?] at erased
  | cons entry run ih =>
      cases equal : entry.1 == key with
      | true =>
          obtain rfl : run = shorter := by
            simpa [erase?_cons_of_eq run equal] using erased
          exact List.sublist_cons_self _ _
      | false =>
          rw [erase?_cons_of_ne run equal, Option.map_eq_some_iff] at erased
          obtain ⟨rest, erased, rfl⟩ := erased
          exact (ih erased).cons_cons entry

theorem length_of_erase? (erased : run.erase? key = some shorter) :
    shorter.length + 1 = run.length := by
  induction run generalizing shorter with
  | nil => simp [erase?] at erased
  | cons entry run ih =>
      cases equal : entry.1 == key with
      | true =>
          obtain rfl : run = shorter := by
            simpa [erase?_cons_of_eq run equal] using erased
          rfl
      | false =>
          rw [erase?_cons_of_ne run equal, Option.map_eq_some_iff] at erased
          obtain ⟨rest, erased, rfl⟩ := erased
          exact congrArg (· + 1) (ih erased)

/-- Taking out a key leaves the entries with other keys. -/
theorem eq_filter_of_erase? [EquivBEq κ] (distinct : run.Distinct)
    (erased : run.erase? key = some shorter) :
    shorter = run.filter fun entry => !entry.1 == key := by
  induction run generalizing shorter with
  | nil => simp [erase?] at erased
  | cons entry run ih =>
      obtain ⟨unequal, distinct⟩ := distinct_cons.mp distinct
      cases equal : entry.1 == key with
      | true =>
          obtain rfl : run = shorter := by
            simpa [erase?_cons_of_eq run equal] using erased
          have others : run.filter (fun other => !other.1 == key) = run := by
            refine List.filter_eq_self.mpr ?_
            intro other member
            rw [unequal_of_head unequal equal other member]
            rfl
          simp [equal, others]
      | false =>
          rw [erase?_cons_of_ne run equal, Option.map_eq_some_iff] at erased
          obtain ⟨rest, erased, rfl⟩ := erased
          simp [equal, ih distinct erased]

end Erase

/-- An entry is found under its own key. -/
theorem Distinct.find?_of_mem [EquivBEq κ] {run : Run κ ν} (distinct : run.Distinct)
    {entry : κ × ν} (member : entry ∈ run) {key : κ} (equal : (entry.1 == key) = true) :
    run.find? key = some entry := by
  induction run with
  | nil => cases member
  | cons head run ih =>
      obtain ⟨unequal, distinct⟩ := distinct_cons.mp distinct
      rw [find?_cons]
      rcases List.mem_cons.mp member with rfl | member
      · rw [if_pos equal]
      · have different : (head.1 == key) = false := by
          rw [← BEq.congr_right equal]
          exact unequal entry member
        rw [if_neg (by simp [different]), ih distinct member]

/-- A test of the entries of a key is a test of the one that is found. -/
theorem Distinct.any_and_eq [EquivBEq κ] {run : Run κ ν} (distinct : run.Distinct) (key : κ)
    (test : κ × ν → Bool) :
    run.any (fun entry => entry.1 == key && test entry) = (run.find? key).any test := by
  induction run with
  | nil => rfl
  | cons entry run ih =>
      obtain ⟨unequal, distinct⟩ := distinct_cons.mp distinct
      rw [List.any_cons, ih distinct, find?_cons]
      cases equal : entry.1 == key with
      | false => simp
      | true =>
          have absent : find? run key = none :=
            find?_eq_none_iff.mpr (unequal_of_head unequal equal)
          simp [absent]

end Run

variable {κ ν : Type} [Hashable κ]

/-- The entries of a list whose keys have a given hash, in their order. -/
def runOf (code : UInt64) (entries : List (κ × ν)) : Run κ ν :=
  entries.filter fun entry => hash entry.1 == code

variable {code : UInt64} {entries : List (κ × ν)}

theorem mem_runOf {entry : κ × ν} :
    entry ∈ runOf code entries ↔ entry ∈ entries ∧ hash entry.1 = code := by
  simp [runOf]

theorem runOf_append (first second : List (κ × ν)) :
    runOf code (first ++ second) = runOf code first ++ runOf code second :=
  List.filter_append ..

theorem runOf_cons_of_eq {entry : κ × ν} (same : hash entry.1 = code) :
    runOf code (entry :: entries) = entry :: runOf code entries := by
  simp [runOf, same]

theorem runOf_cons_of_ne {entry : κ × ν} (different : hash entry.1 ≠ code) :
    runOf code (entry :: entries) = runOf code entries := by
  simp [runOf, different]

theorem runOf_filter (keep : κ × ν → Bool) (entries : List (κ × ν)) :
    runOf code (entries.filter keep) = (runOf code entries).filter keep := by
  simp only [runOf, List.filter_filter, Bool.and_comm]

theorem runOf_eq_self (hashed : ∀ entry ∈ entries, hash entry.1 = code) :
    runOf code entries = entries :=
  List.filter_eq_self.mpr fun entry member => by simpa using hashed entry member

theorem runOf_eq_nil_iff : runOf code entries = [] ↔ ∀ entry ∈ entries, hash entry.1 ≠ code := by
  simp [runOf]

/-- Entries of one hash are one run. -/
theorem runOf_of_hashed (hashed : ∀ entry ∈ entries, hash entry.1 = code) (other : UInt64) :
    runOf other entries = if other = code then entries else [] := by
  split
  · rename_i same
    exact runOf_eq_self (same ▸ hashed)
  · rename_i different
    exact runOf_eq_nil_iff.mpr fun entry member same => different (same ▸ hashed entry member)

/-- An entry is in a list exactly if it is in the run of its hash. -/
theorem mem_iff_mem_runOf {entry : κ × ν} :
    entry ∈ entries ↔ entry ∈ runOf (hash entry.1) entries :=
  ⟨fun member => mem_runOf.mpr ⟨member, rfl⟩, fun member => (mem_runOf.mp member).1⟩

/-- Lists with the same runs have the same entries. -/
theorem perm_of_runOf {first second : List (κ × ν)}
    (same : ∀ code, runOf code first = runOf code second) : first.Perm second := by
  classical
  refine List.perm_iff_count.mpr ?_
  intro entry
  have inRun (entries : List (κ × ν)) :
      (runOf (hash entry.1) entries).count entry = entries.count entry :=
    List.count_filter (beq_self_eq_true _)
  rw [← inRun first, ← inRun second, same]

variable [BEq κ]

/-- A key is searched for in the run of its hash only. -/
theorem find?_runOf [LawfulHashable κ] (entries : List (κ × ν)) (key : κ) :
    (runOf (hash key) entries).find? key = Run.find? entries key := by
  induction entries with
  | nil => rfl
  | cons entry entries ih =>
      rw [Run.find?_cons]
      by_cases same : hash entry.1 = hash key
      · rw [runOf_cons_of_eq same, Run.find?_cons, ih]
      · have unequal : (entry.1 == key) = false := by
          by_contra equal
          exact same (LawfulHashable.hash_eq _ _ (by simpa using equal))
        rw [runOf_cons_of_ne same, ih, unequal, if_neg Bool.false_ne_true]

/-- Keys that are unequal within each run: two keys of one hash are unequal. -/
theorem pairwise_of_distinct_runOf {entries : List (κ × ν)}
    (distinct : ∀ code, (runOf code entries).Distinct) :
    entries.Pairwise fun first second =>
      hash first.1 = hash second.1 → (first.1 == second.1) = false := by
  refine List.pairwise_iff_forall_sublist.mpr ?_
  intro first second both same
  have inRun := both.filter fun entry => hash entry.1 == hash second.1
  simp only [List.filter_cons, List.filter_nil, same, beq_self_eq_true, if_true] at inRun
  exact List.pairwise_iff_forall_sublist.mp (distinct (hash second.1)) inRun

/-- Keys that are unequal within each run are unequal altogether. -/
theorem distinct_of_runOf [LawfulHashable κ] {entries : List (κ × ν)}
    (distinct : ∀ code, (runOf code entries).Distinct) : Run.Distinct entries := by
  refine (pairwise_of_distinct_runOf distinct).imp ?_
  intro first second unequal
  by_contra equal
  rw [Bool.not_eq_false] at equal
  rw [unequal (LawfulHashable.hash_eq _ _ equal)] at equal
  cases equal

/-- Writing to a list is writing to the run of the hash of the key. -/
theorem runOf_upsert [LawfulHashable κ] (key : κ) (resolve : Option ν → ν)
    (entries : List (κ × ν)) (code : UInt64) :
    runOf code (Run.upsert key resolve entries).1 =
      if code = hash key then ((runOf code entries).upsert key resolve).1
      else runOf code entries := by
  have filtered := Run.filter_upsert key resolve (fun key => hash key == code)
    (fun equal => by rw [LawfulHashable.hash_eq _ _ equal]) entries
  simp only [beq_iff_eq] at filtered
  simp only [runOf, filtered, eq_comm (a := code)]

end HashTrie
