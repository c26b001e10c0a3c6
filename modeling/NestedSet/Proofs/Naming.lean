import Mathlib
import NestedSet.Identifier

/-!
# The names that can be quoted

The scan of a name accepts one language, which is said here with the letters
and digits of ASCII: a letter or an underscore, then letters, digits and
underscores, 64 bytes at most. Two names have one key if they differ in the
case of ASCII letters only.
-/

set_option autoImplicit false

namespace NestedSet

namespace Identifier

def Admits (s : String) : Prop :=
  s.utf8ByteSize ≤ 64 ∧ ∃ first rest, s.toList = first :: rest ∧
    (first.isAlpha = true ∨ first = '_') ∧ ∀ c ∈ rest, c.isAlphanum = true ∨ c = '_'

theorem isLetter_iff (c : Char) : isLetter c = true ↔ c.isAlpha = true := by
  simp only [isLetter, Char.isAlpha, Char.isUpper, Char.isLower, Bool.or_eq_true, Bool.and_eq_true,
    decide_eq_true_eq, ge_iff_le, Char.le_def]
  exact or_comm

theorem isDigit_iff (c : Char) : isDigit c = true ↔ c.isDigit = true := by
  simp only [isDigit, Char.isDigit, Bool.and_eq_true, decide_eq_true_eq, ge_iff_le, Char.le_def]

theorem isStart_iff (c : Char) : isStart c = true ↔ c.isAlpha = true ∨ c = '_' := by
  simp [isStart, isLetter_iff]

theorem isPart_iff (c : Char) : isPart c = true ↔ c.isAlphanum = true ∨ c = '_' := by
  simp [isPart, Char.isAlphanum, isLetter_iff, isDigit_iff]

theorem firstBad_eq_none_iff {index : Nat} {cs : List Char} :
    firstBad index cs = none ↔ ∀ c ∈ cs, c.isAlphanum = true ∨ c = '_' := by
  induction cs generalizing index with
  | nil => simp [firstBad]
  | cons c rest ih =>
    unfold firstBad
    by_cases hc : isPart c = true
    · simp [hc, ih, (isPart_iff c).1 hc]
    · have hbad : ¬(c.isAlphanum = true ∨ c = '_') := fun h => hc ((isPart_iff c).2 h)
      simp only [hc, List.forall_mem_cons, hbad, false_and, iff_false]
      simp

theorem fault?_eq_none_iff {s : String} : fault? s = none ↔ Admits s := by
  unfold fault? Admits
  cases htext : s.toList with
  | nil => simp
  | cons first rest =>
    by_cases hlong : maxBytes < s.utf8ByteSize
    · have hover : ¬s.utf8ByteSize ≤ 64 := Nat.not_le.2 hlong
      simp [hlong, hover]
    · have hshort : s.utf8ByteSize ≤ 64 := Nat.not_lt.1 hlong
      by_cases hfirst : isStart first = true
      · have hletter := (isStart_iff first).1 hfirst
        simp [hlong, hshort, hfirst, hletter, firstBad_eq_none_iff]
      · have hbad : ¬(first.isAlpha = true ∨ first = '_') := fun h =>
          hfirst ((isStart_iff first).2 h)
        simp only [hlong, hfirst]
        simp only [if_false, Bool.false_eq_true, reduceCtorEq, false_iff]
        rintro ⟨-, _, _, ⟨⟩, h, -⟩
        exact hbad h

end Identifier

namespace Text

theorem foldChar_eq (c : Char) : foldChar c = c.toLower := by
  by_cases hc : 'A' ≤ c ∧ c ≤ 'Z'
  · have hlow : 65 ≤ c.toNat := hc.1
    have hhigh : c.toNat ≤ 90 := hc.2
    have hvalid : (c.toNat + 32).isValidChar := .inl (by omega)
    have hcapital : c.val ≥ 'A'.val ∧ c.val ≤ 'Z'.val := hc
    rw [foldChar, if_pos hc, Char.toLower, dif_pos hcapital]
    apply Char.toNat_inj.1
    have hsum : (c.val + ('a'.val - 'A'.val)).toNat = c.toNat + 32 := by
      have hstep : ('a'.val - 'A'.val).toNat = 32 := rfl
      rw [UInt32.toNat_add, hstep, Char.toNat_val]
      omega
    rw [Char.toNat_ofNat, if_pos hvalid]
    exact hsum.symm
  · have hother : ¬(c.val ≥ 'A'.val ∧ c.val ≤ 'Z'.val) := hc
    rw [foldChar, if_neg hc, Char.toLower, dif_neg hother]

theorem fold_eq (s : String) : fold s = s.toLower := by
  apply String.toList_injective
  rw [fold, String.toList_ofList, String.toLower, String.toList_map]
  exact List.map_congr_left fun c _ => foldChar_eq c

end Text

end NestedSet
