import HashTrie.Slot
import Mathlib.Algebra.Group.Nat.Defs

/-!
# The order of hash digits

A hash is determined by its thirteen digits (`eq_of_agree`), so two different
hashes differ at a level below the thirteenth (`exists_first_difference`).
Comparing digits from the lowest level up orders the hashes strictly and totally
(`Precedes`); this is the order in which a trie lists its entries.
-/

namespace HashTrie

/-- Two sequences of slots are the same below a depth. -/
def Agree (first second : Nat → Slot) (depth : Nat) : Prop :=
  ∀ level < depth, first level = second level

namespace Agree

variable {first second third : Nat → Slot} {depth : Nat}

theorem refl (first : Nat → Slot) (depth : Nat) : Agree first first depth :=
  fun _ _ => rfl

theorem symm (same : Agree first second depth) : Agree second first depth :=
  fun level below => (same level below).symm

theorem trans (same : Agree first second depth) (next : Agree second third depth) :
    Agree first third depth :=
  fun level below => (same level below).trans (next level below)

theorem mono {lower : Nat} (same : Agree first second depth) (lower_le : lower ≤ depth) :
    Agree first second lower :=
  fun level below => same level (Nat.lt_of_lt_of_le below lower_le)

theorem zero : Agree first second 0 :=
  fun _ below => absurd below (Nat.not_lt_zero _)

/-- Agreement one level deeper is agreement in one more digit. -/
theorem succ_iff : Agree first second (depth + 1) ↔
    Agree first second depth ∧ first depth = second depth := by
  constructor
  · intro same
    exact ⟨same.mono (Nat.le_succ depth), same depth (Nat.lt_succ_self depth)⟩
  · rintro ⟨same, here⟩ level below
    rcases Nat.lt_succ_iff_lt_or_eq.mp below with lower | rfl
    · exact same level lower
    · exact here

/-- A sequence can be continued with any slot at a depth. -/
theorem exists_next (first : Nat → Slot) (depth : Nat) (slot : Slot) :
    ∃ next, Agree first next depth ∧ next depth = slot :=
  ⟨fun level => if level = depth then slot else first level,
    fun _ below => (if_neg (Nat.ne_of_lt below)).symm, if_pos rfl⟩

end Agree

/-- Hashes with the same digits below a depth have the same remainder. -/
theorem mod_eq_of_agree {left right : UInt64} {depth : Nat}
    (same : Agree (digit left) (digit right) depth) :
    left.toNat % 32 ^ depth = right.toNat % 32 ^ depth := by
  induction depth with
  | zero => simp [Nat.mod_one]
  | succ depth ih =>
      obtain ⟨lower, here⟩ := Agree.succ_iff.mp same
      have digits : left.toNat / 32 ^ depth % 32 = right.toNat / 32 ^ depth % 32 := by
        have values := congrArg Fin.val here
        rwa [digit_val, digit_val, Nat.shiftRight_eq_div_pow, Nat.shiftRight_eq_div_pow,
          Nat.pow_mul] at values
      rw [Nat.mod_pow_succ, Nat.mod_pow_succ, ih lower, digits]

/-- A hash is determined by its digits. -/
theorem eq_of_agree {left right : UInt64}
    (same : Agree (digit left) (digit right) levels) : left = right := by
  have remainders := mod_eq_of_agree same
  have small (code : UInt64) : code.toNat < 32 ^ levels :=
    Nat.lt_trans code.toNat_lt (by decide)
  rw [Nat.mod_eq_of_lt (small left), Nat.mod_eq_of_lt (small right)] at remainders
  exact UInt64.toNat_inj.mp remainders

/-- Beyond the last digit of a hash there are only zeros. -/
theorem digit_eq_zero (code : UInt64) {level : Nat} (deep : levels ≤ level) :
    digit code level = 0 := by
  apply Fin.ext
  have small : code.toNat < 2 ^ (5 * level) :=
    Nat.lt_of_lt_of_le code.toNat_lt
      (Nat.pow_le_pow_right (by decide) (by simp only [levels] at deep; omega))
  rw [digit_val, Nat.shiftRight_eq_div_pow, Nat.div_eq_of_lt small]
  rfl

/-- Below a depth two sequences either agree or have a first difference. -/
theorem agree_or_first_difference (first second : Nat → Slot) (depth : Nat) :
    Agree first second depth ∨
      ∃ level < depth, Agree first second level ∧ first level ≠ second level := by
  induction depth with
  | zero => exact .inl .zero
  | succ depth ih =>
      rcases ih with same | ⟨level, below, same, differ⟩
      · by_cases here : first depth = second depth
        · exact .inl (Agree.succ_iff.mpr ⟨same, here⟩)
        · exact .inr ⟨depth, Nat.lt_succ_self depth, same, here⟩
      · exact .inr ⟨level, Nat.lt_succ_of_lt below, same, differ⟩

/-- Two different hashes have a lowest digit in which they differ. -/
theorem exists_first_difference {left right : UInt64} (different : left ≠ right) :
    ∃ level < levels, Agree (digit left) (digit right) level ∧
      digit left level ≠ digit right level := by
  rcases agree_or_first_difference (digit left) (digit right) levels with same | found
  · exact absurd (eq_of_agree same) different
  · exact found

/-- Hashes that agree below the last level and differ are told apart from a
depth on. -/
theorem depth_lt_levels {left right : UInt64} {depth : Nat} (different : left ≠ right)
    (same : Agree (digit left) (digit right) depth) : depth < levels := by
  apply Nat.lt_of_not_le
  intro deep
  exact different (eq_of_agree (same.mono deep))

/-- One hash comes before another: it has the smaller digit at the lowest level
where the two differ. -/
def Precedes (left right : UInt64) : Prop :=
  ∃ level, Agree (digit left) (digit right) level ∧ digit left level < digit right level

theorem precedes_iff_below_levels {left right : UInt64} : Precedes left right ↔
    ∃ level < levels, (∀ lower < level, digit left lower = digit right lower) ∧
      digit left level < digit right level := by
  constructor
  · rintro ⟨level, same, less⟩
    refine ⟨level, Nat.lt_of_not_le ?_, same, less⟩
    intro deep
    rw [digit_eq_zero left deep, digit_eq_zero right deep] at less
    exact absurd less (Fin.not_lt.mpr (Fin.le_refl 0))
  · rintro ⟨level, _, same, less⟩
    exact ⟨level, same, less⟩

instance (left right : UInt64) : Decidable (Precedes left right) :=
  decidable_of_iff _ precedes_iff_below_levels.symm

theorem not_precedes_self (code : UInt64) : ¬ Precedes code code := by
  rintro ⟨level, _, less⟩
  exact absurd less (Fin.not_lt.mpr (Fin.le_refl _))

theorem Precedes.trans {left middle right : UInt64} (first : Precedes left middle)
    (second : Precedes middle right) : Precedes left right := by
  obtain ⟨level, same, less⟩ := first
  obtain ⟨other, sameNext, lessNext⟩ := second
  rcases Nat.lt_trichotomy level other with lower | rfl | higher
  · exact ⟨level, same.trans (sameNext.mono (Nat.le_of_lt lower)),
      sameNext level lower ▸ less⟩
  · exact ⟨level, same.trans sameNext, Fin.lt_trans less lessNext⟩
  · exact ⟨other, (same.mono (Nat.le_of_lt higher)).trans sameNext,
      (same other higher).symm ▸ lessNext⟩

theorem Precedes.not_symm {left right : UInt64} (first : Precedes left right) :
    ¬ Precedes right left :=
  fun second => not_precedes_self left (first.trans second)

/-- Of two different hashes one comes first. -/
theorem precedes_or_precedes {left right : UInt64} (different : left ≠ right) :
    Precedes left right ∨ Precedes right left := by
  obtain ⟨level, _, same, differ⟩ := exists_first_difference different
  rcases Fin.lt_or_lt_of_ne differ with less | greater
  · exact .inl ⟨level, same, less⟩
  · exact .inr ⟨level, same.symm, greater⟩

end HashTrie
