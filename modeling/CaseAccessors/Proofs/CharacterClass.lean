import CaseAccessors.Token.Lexing

/-! Classes of characters as ranges of code points, which settles how they overlap. A character
outside ASCII has no ASCII byte in UTF-8, so the classes that lexing asks for are classes of bytes
as well. -/
namespace CaseAccessors

theorem char_eq_iff {c d : Char} : c = d ↔ c.toNat = d.toNat :=
  ⟨congrArg Char.toNat, fun h => Char.ext (UInt32.toNat_inj.1 h)⟩

theorem isDigit_iff {c : Char} : c.isDigit = true ↔ 48 ≤ c.toNat ∧ c.toNat ≤ 57 := by
  simp [Char.isDigit, UInt32.le_iff_toNat_le, ← Char.toNat_val]

theorem isAlpha_iff {c : Char} :
    c.isAlpha = true ↔ (65 ≤ c.toNat ∧ c.toNat ≤ 90) ∨ (97 ≤ c.toNat ∧ c.toNat ≤ 122) := by
  unfold Char.isAlpha Char.isUpper Char.isLower
  simp [UInt32.le_iff_toNat_le, ← Char.toNat_val]

theorem isIdentStart_iff {c : Char} :
    isIdentStart c = true ↔ c.toNat = 95 ∨ c.toNat = 36 ∨ (65 ≤ c.toNat ∧ c.toNat ≤ 90) ∨
      (97 ≤ c.toNat ∧ c.toNat ≤ 122) ∨ 128 ≤ c.toNat := by
  have h₁ : '_'.toNat = 95 := rfl
  have h₂ : '$'.toNat = 36 := rfl
  simp only [isIdentStart, Bool.or_eq_true, beq_iff_eq, decide_eq_true_eq, isAlpha_iff, char_eq_iff]
  omega

theorem isIdentPart_iff {c : Char} :
    isIdentPart c = true ↔ c.toNat = 95 ∨ c.toNat = 36 ∨ (48 ≤ c.toNat ∧ c.toNat ≤ 57) ∨
      (65 ≤ c.toNat ∧ c.toNat ≤ 90) ∨ (97 ≤ c.toNat ∧ c.toNat ≤ 122) ∨ 128 ≤ c.toNat := by
  simp only [isIdentPart, Bool.or_eq_true, isIdentStart_iff, isDigit_iff]
  omega

theorem isSpace_iff {c : Char} :
    isSpace c = true ↔ c.toNat = 32 ∨ c.toNat = 9 ∨ c.toNat = 10 ∨ c.toNat = 12 ∨ c.toNat = 13 := by
  simp [isSpace, char_eq_iff, or_assoc]

def Text.utf8 (s : Text) : List UInt8 := s.flatMap String.utf8EncodeChar

def IsDigitByte (b : UInt8) : Prop := '0'.toNat ≤ b.toNat ∧ b.toNat ≤ '9'.toNat

def IsIdentByte (b : UInt8) : Prop :=
  b.toNat = '_'.toNat ∨ b.toNat = '$'.toNat ∨ ('A'.toNat ≤ b.toNat ∧ b.toNat ≤ 'Z'.toNat) ∨
    ('a'.toNat ≤ b.toNat ∧ b.toNat ≤ 'z'.toNat) ∨ 0x80 ≤ b.toNat ∨ IsDigitByte b

theorem toNat_of_mem_utf8EncodeChar {b : UInt8} {c : Char} (h : b ∈ String.utf8EncodeChar c) :
    (c.toNat < 0x80 ∧ b.toNat = c.toNat) ∨ (0x80 ≤ c.toNat ∧ 0x80 ≤ b.toNat) := by
  simp only [String.utf8EncodeChar, show c.val.toNat = c.toNat from rfl] at h
  have hhigh : ∀ n, 0x80 ≤ n → n < 0x100 → b = UInt8.ofNat n → 0x80 ≤ b.toNat := by
    rintro n hn hlt rfl
    rwa [UInt8.toNat_ofNat', Nat.mod_eq_of_lt hlt]
  by_cases hc : c.toNat ≤ 127
  · rw [if_pos hc, List.mem_singleton] at h
    rw [h, UInt8.toNat_ofNat']
    omega
  refine .inr ⟨by omega, ?_⟩
  rw [if_neg hc] at h
  split at h
  · simp only [List.mem_cons, List.not_mem_nil, or_false] at h
    obtain h | h := h <;> exact hhigh _ (by omega) (by omega) h
  split at h <;> simp only [List.mem_cons, List.not_mem_nil, or_false] at h
  · obtain h | h | h := h <;> exact hhigh _ (by omega) (by omega) h
  · obtain h | h | h | h := h <;> exact hhigh _ (by omega) (by omega) h

theorem isIdentByte_iff {b : UInt8} {c : Char} (h : b ∈ String.utf8EncodeChar c) :
    IsIdentByte b ↔ isIdentPart c = true := by
  have hb := toNat_of_mem_utf8EncodeChar h
  simp only [IsIdentByte, IsDigitByte, isIdentPart_iff, Char.reduceToNat]
  omega

theorem isDigitByte_iff {b : UInt8} {c : Char} (h : b ∈ String.utf8EncodeChar c) :
    IsDigitByte b ↔ c.isDigit = true := by
  have hb := toNat_of_mem_utf8EncodeChar h
  simp only [IsDigitByte, isDigit_iff, Char.reduceToNat]
  omega

theorem Text.exists_of_mem_utf8_head? {s : Text} {b : UInt8} (h : b ∈ (utf8 s).head?) :
    ∃ c ∈ s.head?, b ∈ String.utf8EncodeChar c := by
  cases s with
  | nil => cases h
  | cons c s =>
    refine ⟨c, rfl, ?_⟩
    obtain ⟨a, as, ha⟩ := List.exists_cons_of_ne_nil (String.utf8EncodeChar_ne_nil (c := c))
    rw [utf8, List.flatMap_cons, ha] at h
    obtain rfl : a = b := Option.some.inj h
    exact ha ▸ List.mem_cons_self

end CaseAccessors
