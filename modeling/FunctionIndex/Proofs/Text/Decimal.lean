import FunctionIndex.Text.Decimal
import Mathlib.Data.List.Basic

/-! # Decimal digits

A numeral is a non-empty run of digits without a leading zero, and it is read back as its number.
-/
namespace FunctionIndex.Text.Decimal
set_option autoImplicit false

theorem forall_isDigit {p : Char → Bool} (h : ∀ n : Fin 10, p (Char.ofNat (n.val + 48)) = true)
    {c : Char} (hDigit : c.isDigit = true) : p c = true := by
  simp only [Char.isDigit, Bool.and_eq_true, decide_eq_true_eq, UInt32.le_iff_toNat_le] at hDigit
  have hLow : 48 ≤ c.toNat := hDigit.1
  have hHigh : c.toNat ≤ 57 := hDigit.2
  have hChar := h ⟨c.toNat - 48, by omega⟩
  rwa [Nat.sub_add_cancel hLow, Char.ofNat_toNat] at hChar

theorem isDigit_of_mem_digits {n : Nat} {c : Char} (h : c ∈ digits n) : c.isDigit = true :=
  Nat.isDigit_of_mem_toDigits (by decide) (by decide) h

theorem digits_eq_cons (n : Nat) : ∃ c rest, digits n = c :: rest ∧ c.isDigit = true := by
  cases hDigits : digits n with
  | nil => exact absurd hDigits Nat.toDigits_ne_nil
  | cons c rest => exact ⟨c, rest, rfl, isDigit_of_mem_digits (hDigits ▸ List.mem_cons_self)⟩

theorem value_digits (n : Nat) : value (digits n) = n := Nat.ofDigitChars_ten_toDigits

theorem digits_injective : Function.Injective digits := Function.LeftInverse.injective value_digits

theorem not_mem_digits {c : Char} (h : c.isDigit = false) (n : Nat) : c ∉ digits n := by
  intro hMem
  rw [isDigit_of_mem_digits hMem] at h
  cases h

theorem head?_digits_ne_zero {n : Nat} (h : 0 < n) : (digits n).head? ≠ some '0' := by
  induction n using Nat.strongRecOn with
  | ind n ih =>
    rw [digits, Nat.toDigits_eq_if (by decide)]
    split
    · rename_i hSmall
      have hAll : ∀ i : Fin 10, 0 < i.val → [Nat.digitChar i.val].head? ≠ some '0' := by decide
      exact hAll ⟨n, hSmall⟩ h
    · have hHead := ih (n / 10) (by omega) (by omega)
      rwa [List.head?_append_of_ne_nil _ Nat.toDigits_ne_nil]

end FunctionIndex.Text.Decimal
