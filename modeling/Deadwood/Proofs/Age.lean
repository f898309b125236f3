/-
# Which of two runs is later

Runs are named by numbers, and reverting compares these as they are written:
without leading zeros the longer one is larger, and of two that are equally long
the one that comes later among texts. This module shows that texts are put in
order that way, and numbers in their own order.
-/

import Deadwood.Proofs.Fix.Naming
import Deadwood.Revert

namespace Deadwood.Revert

open Deadwood.Fix

variable {a b c : String} {m n : Nat}

/-! ## An order on texts -/

theorem isLater_iff : isLater a b = true ↔
    (ageKey b).1 < (ageKey a).1 ∨ (ageKey a).1 = (ageKey b).1 ∧ (ageKey b).2 ≤ (ageKey a).2 := by
  simp [isLater]

theorem isLater_total (a b : String) : (isLater a b || isLater b a) = true := by
  rw [Bool.or_eq_true, isLater_iff, isLater_iff]
  rcases Nat.lt_trichotomy (ageKey a).1 (ageKey b).1 with hless | hsame | hmore
  · exact .inr (.inl hless)
  · rcases String.le_total (ageKey b).2 (ageKey a).2 with hle | hle
    · exact .inl (.inr ⟨hsame, hle⟩)
    · exact .inr (.inr ⟨hsame.symm, hle⟩)
  · exact .inl (.inl hmore)

theorem isLater_trans (hab : isLater a b = true) (hbc : isLater b c = true) :
    isLater a c = true := by
  rw [isLater_iff] at *
  rcases hab with hab | ⟨hab, hle⟩
  · left
    omega
  · rcases hbc with hbc | ⟨hbc, hle'⟩
    · left
      omega
    · exact .inr ⟨hab.trans hbc, String.le_trans hle' hle⟩

/-! ## The order of numbers -/

/-- The digits of a number, of which zero has none. -/
def significant (n : Nat) : List Char :=
  if n = 0 then [] else Nat.toDigits 10 n

theorem significant_of_pos (hpos : 0 < n) :
    significant n = significant (n / 10) ++ [Nat.digitChar (n % 10)] := by
  rw [significant, if_neg (by omega), significant]
  by_cases hsmall : n < 10
  · rw [Nat.toDigits_of_lt_base hsmall, if_pos (by omega), Nat.mod_eq_of_lt hsmall, List.nil_append]
  · rw [Nat.toDigits_of_base_le (by decide) (by omega), if_neg (by omega)]

private theorem digitChar_ne_zero (hpos : 0 < n) (hsmall : n < 10) :
    (Nat.digitChar n == '0') = false := by
  have hall : ((List.range 10).drop 1).all (fun n => Nat.digitChar n != '0') = true := by decide
  have hmem : n ∈ (List.range 10).drop 1 := by
    rw [List.mem_drop_iff_getElem]
    exact ⟨n - 1, by simp; omega, by simp; omega⟩
  simpa using List.all_eq_true.mp hall n hmem

/-- Without its leading zeros a number has its significant digits. -/
private theorem dropWhile_toDigits (n : Nat) :
    (Nat.toDigits 10 n).dropWhile (· == '0') = significant n := by
  induction n using Nat.strongRecOn with
  | ind n ih =>
    by_cases hsmall : n < 10
    · rw [Nat.toDigits_of_lt_base hsmall]
      by_cases hzero : n = 0
      · subst hzero
        rfl
      · rw [List.dropWhile_cons_of_neg (by rw [digitChar_ne_zero (by omega) hsmall]; decide),
          significant, if_neg hzero, Nat.toDigits_of_lt_base hsmall]
    · have hne : significant (n / 10) ≠ [] := by
        rw [significant_of_pos (by omega)]
        simp
      rw [Nat.toDigits_of_base_le (by decide) (by omega), List.dropWhile_append,
        ih (n / 10) (by omega), if_neg (by simpa using hne), ← significant_of_pos (by omega)]

private theorem size_ofList {chars : List Char} (hsmall : ∀ c ∈ chars, c.utf8Size = 1) :
    (String.ofList chars).utf8ByteSize = chars.length := by
  induction chars with
  | nil => rfl
  | cons c rest ih =>
    rw [String.ofList_cons, String.utf8ByteSize_append, String.utf8ByteSize_singleton,
      hsmall c List.mem_cons_self, ih fun d hd => hsmall d (List.mem_cons_of_mem _ hd),
      List.length_cons, Nat.add_comm]

theorem ageKey_toString (n : Nat) :
    ageKey (toString n) = ((significant n).length, String.ofList (significant n)) := by
  have hsmall : ∀ c ∈ significant n, c.utf8Size = 1 := by
    intro c hc
    unfold significant at hc
    split at hc
    · simp at hc
    · have hdigit := Nat.isDigit_of_mem_toDigits (by decide) (by decide) hc
      have hrange := Char.isDigit_iff_toNat.mp hdigit
      rw [Char.utf8Size_eq_one_iff, UInt32.le_iff_toNat_le]
      exact Nat.le_trans hrange.2 (by decide)
  rw [ageKey, Nat.toString_eq_ofList_toDigits, String.toList_ofList, dropWhile_toDigits,
    size_ofList hsmall]

private theorem lex_append {xs ys : List Char} (hlex : List.Lex (· < ·) xs ys)
    (hlength : xs.length = ys.length) (more others : List Char) :
    List.Lex (· < ·) (xs ++ more) (ys ++ others) := by
  induction hlex with
  | nil => simp at hlength
  | rel hless => exact .rel hless
  | cons _ ih => exact .cons (ih (by simpa using hlength))

private theorem lex_append_left {xs ys : List Char} (hlex : List.Lex (· < ·) xs ys)
    (front : List Char) : List.Lex (· < ·) (front ++ xs) (front ++ ys) := by
  induction front with
  | nil => exact hlex
  | cons c front ih => exact .cons ih

private theorem digitChar_lt (hless : m < n) (hsmall : n < 10) :
    Nat.digitChar m < Nat.digitChar n := by
  have hall : (List.range 10).all (fun n => (List.range n).all fun m =>
      decide (Nat.digitChar m < Nat.digitChar n)) = true := by decide
  have hn := List.all_eq_true.mp hall n (List.mem_range.mpr hsmall)
  exact of_decide_eq_true (List.all_eq_true.mp hn m (List.mem_range.mpr hless))

/-- A smaller number has fewer digits, or as many and comes first among texts. -/
private theorem significant_lt (hless : m < n) :
    (significant m).length < (significant n).length ∨
      (significant m).length = (significant n).length ∧
        List.Lex (· < ·) (significant m) (significant n) := by
  induction n using Nat.strongRecOn generalizing m with
  | ind n ih =>
    rw [significant_of_pos (n := n) (by omega), List.length_append, List.length_singleton]
    by_cases hzero : m = 0
    · left
      rw [hzero, significant, if_pos rfl, List.length_nil]
      omega
    rw [significant_of_pos (n := m) (by omega), List.length_append, List.length_singleton]
    by_cases hfront : m / 10 < n / 10
    · rcases ih (n / 10) (by omega) hfront with hlength | ⟨hlength, hlex⟩
      · left
        omega
      · exact .inr ⟨by omega, lex_append hlex hlength _ _⟩
    · have hsame : m / 10 = n / 10 := by omega
      rw [hsame]
      exact .inr ⟨rfl, lex_append_left (.rel (digitChar_lt (by omega) (by omega))) _⟩

/-- Numbers are compared as numbers, however many digits they have. -/
theorem isLater_toString_iff : isLater (toString m) (toString n) = true ↔ n ≤ m := by
  have hearlier : ∀ {m n : Nat}, m < n → ¬ isLater (toString m) (toString n) = true := by
    intro m n hless hlater
    rw [isLater_iff, ageKey_toString, ageKey_toString] at hlater
    rcases significant_lt hless with hlength | ⟨hlength, hlex⟩
    · rcases hlater with hmore | ⟨hsame, -⟩
      · exact absurd hmore (by dsimp only; omega)
      · exact absurd hsame (by dsimp only; omega)
    · rcases hlater with hmore | ⟨-, hle⟩
      · exact absurd hmore (by dsimp only; omega)
      · apply hle
        show List.Lex (· < ·) (String.ofList (significant m)).toList
          (String.ofList (significant n)).toList
        rwa [String.toList_ofList, String.toList_ofList]
  constructor
  · intro hlater
    by_contra hless
    exact hearlier (by omega) hlater
  · intro hle
    by_cases hsame : n = m
    · rw [hsame]
      simpa using isLater_total (toString m) (toString m)
    · have htotal := isLater_total (toString m) (toString n)
      rw [Bool.or_eq_true] at htotal
      exact htotal.resolve_right (hearlier (by omega))

end Deadwood.Revert
