import Mathlib.Algebra.Group.Int.Defs
import WireSchema.Proofs.Number.Power
import WireSchema.Wire.Decode

/-! Integers and codes as words. An integer within the bounds of its kind loses nothing in
the bytes that the kind has, and every code comes back from its 64 bits. -/

namespace WireSchema

/-- The word of an integer is the integer itself, or lies a full turn above it. -/
theorem toInt_eq_toNat (n : Int64) :
    n.toInt = if n.toUInt64.toNat < 2 ^ 63 then (n.toUInt64.toNat : Int)
      else n.toUInt64.toNat - 2 ^ 64 := by
  have h := BitVec.toInt_eq_toNat_cond n.toBitVec
  have hlt := n.toUInt64.toNat_lt
  rw [Int64.toNat_toBitVec, Int64.toInt_toBitVec] at h
  omega

theorem IntKind.toInt_bounds (kind : IntKind) :
    kind.bounds.min.toInt = (if kind.signed then -2 ^ (kind.bits - 1) else 0) ∧
      kind.bounds.max.toInt =
        if kind.signed then 2 ^ (kind.bits - 1) - 1 else 2 ^ kind.bits - 1 := by
  cases kind <;> exact ⟨rfl, rfl⟩

namespace Decode

theorem intOfWord_mod {kind : IntKind} {n : Int64} (h : kind.bounds.contains n) :
    intOfWord kind (n.toUInt64.toNat % 256 ^ kind.width) = n := by
  obtain ⟨hmin, hmax⟩ := kind.toInt_bounds
  simp only [Bounds.contains, Bool.and_eq_true, decide_eq_true_eq, Int64.le_iff_toInt_le, hmin,
    hmax] at h
  have hn := toInt_eq_toNat n
  have hlt := n.toUInt64.toNat_lt
  have hword : (if kind.signed then
      LittleEndian.signed kind.width (n.toUInt64.toNat % 256 ^ kind.width)
      else ((n.toUInt64.toNat % 256 ^ kind.width : Nat) : Int)) = n.toInt := by
    cases kind <;>
      simp [IntKind.signed, IntKind.bits, IntKind.width, LittleEndian.signed, pow2_eq] at h ⊢ <;>
      omega
  calc intOfWord kind (n.toUInt64.toNat % 256 ^ kind.width)
      = Int64.ofInt n.toInt := by
        rw [← hword, intOfWord, apply_ite Int64.ofInt, Int64.ofInt_eq_ofNat]
    _ = n := Int64.ofInt_toInt n

/-- What a word of a kind stands for. -/
theorem toInt_intOfWord {kind : IntKind} {word : Nat} (h : word < 256 ^ kind.width) :
    (intOfWord kind word).toInt =
      if kind.signed then LittleEndian.signed kind.width word else word := by
  rw [intOfWord, ← Int64.ofInt_eq_ofNat, ← apply_ite Int64.ofInt]
  refine Int64.toInt_ofInt_of_le ?_ ?_ <;> cases kind <;>
    simp [IntKind.signed, IntKind.width, LittleEndian.signed, pow2_eq] at h ⊢ <;> omega

/-- It is within the bounds of the kind. -/
theorem contains_intOfWord {kind : IntKind} {word : Nat} (h : word < 256 ^ kind.width) :
    kind.bounds.contains (intOfWord kind word) := by
  obtain ⟨hmin, hmax⟩ := kind.toInt_bounds
  simp only [Bounds.contains, Bool.and_eq_true, decide_eq_true_eq, Int64.le_iff_toInt_le, hmin,
    hmax, toInt_intOfWord h]
  cases kind <;>
    simp [IntKind.signed, IntKind.bits, IntKind.width, LittleEndian.signed, pow2_eq] at h ⊢ <;>
    omega

theorem toInt64_ofNat_toNat (code : Int64) :
    (UInt64.ofNat code.toUInt64.toNat).toInt64 = code := by
  rw [UInt64.ofNat_toNat, Int64.toInt64_toUInt64]

end Decode

end WireSchema
