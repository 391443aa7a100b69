-- The order of texts. Texts are compared character by character, and that is the order of their bytes in
-- UTF-8: of two characters the smaller one has the smaller byte where their bytes first differ, and the
-- bytes of neither begin those of the other.
import Mathlib.Data.String.Basic

namespace DataBinding.Text

/-- The bytes of a text in UTF-8. -/
def bytes (s : String) : List UInt8 := s.toUTF8.data.toList

theorem bytes_eq (s : String) : bytes s = s.toList.flatMap String.utf8EncodeChar := by
  show s.toByteArray.data.toList = _
  rw [← String.utf8Encode_toList, List.utf8Encode, List.toList_data_toByteArray]

/-- The digits to the base 64 decide between two numbers below `2 ^ 21`, the first of them first. -/
theorem digits_lt {c d : Nat} (lt : c < d) (small : d < 2 ^ 21) :
    c / 262144 % 8 < d / 262144 % 8 ∨ c / 262144 % 8 = d / 262144 % 8 ∧
      (c / 4096 % 64 < d / 4096 % 64 ∨ c / 4096 % 64 = d / 4096 % 64 ∧
        (c / 64 % 64 < d / 64 % 64 ∨ c / 64 % 64 = d / 64 % 64 ∧ c % 64 < d % 64)) := by
  have nested (n : Nat) : n / 4096 = n / 64 / 64 ∧ n / 262144 = n / 64 / 64 / 64 := by
    simp [Nat.div_div_eq_div_mul]
  rw [(nested c).1, (nested c).2, (nested d).1, (nested d).2]
  omega

theorem encode_lt {c d : Char} (lt : c < d) (xs ys : List UInt8) :
    String.utf8EncodeChar c ++ xs < String.utf8EncodeChar d ++ ys := by
  have lt : c.val.toNat < d.val.toNat := lt
  have bound (c : Char) : c.val.toNat < 2 ^ 21 := by
    rcases c.valid with h | h <;> omega
  have hc := bound c
  have hd := bound d
  -- one case for each pair of lengths; the first byte decides between different lengths
  simp only [String.utf8EncodeChar]
  split_ifs <;>
    simp only [List.cons_append, List.nil_append, List.cons_lt_cons_iff, UInt8.lt_iff_toNat_lt,
      ← UInt8.toNat_inj, UInt8.toNat_ofNat'] <;> try omega
  -- two characters of four bytes differ in one of their digits
  have lead (n : Nat) : (n % 8 + 240) % 2 ^ 8 = n % 8 + 240 := by omega
  have rest (n : Nat) : (n % 64 + 128) % 2 ^ 8 = n % 64 + 128 := by omega
  simp only [lead, rest, Nat.add_lt_add_iff_right, Nat.add_right_cancel_iff]
  obtain first | ⟨same₁, second | ⟨same₂, third | ⟨same₃, fourth⟩⟩⟩ := digits_lt lt hd
  · exact .inl first
  · exact .inr ⟨same₁, .inl second⟩
  · exact .inr ⟨same₁, .inr ⟨same₂, .inl third⟩⟩
  · exact .inr ⟨same₁, .inr ⟨same₂, .inr ⟨same₃, .inl fourth⟩⟩⟩

theorem append_lt_append_iff (front xs ys : List UInt8) : front ++ xs < front ++ ys ↔ xs < ys := by
  induction front with
  | nil => rfl
  | cons b front ih => simp [ih]

theorem encodeAll_lt_iff {cs ds : List Char} :
    cs.flatMap String.utf8EncodeChar < ds.flatMap String.utf8EncodeChar ↔ cs < ds := by
  induction cs generalizing ds with
  | nil =>
    cases ds with
    | nil => simp
    | cons d ds =>
      obtain ⟨b, bs, hb⟩ := List.exists_cons_of_ne_nil (String.utf8EncodeChar_ne_nil (c := d))
      simp [hb]
  | cons c cs ih =>
    cases ds with
    | nil => simp
    | cons d ds =>
      simp only [List.flatMap_cons]
      rcases lt_trichotomy c d with lt | rfl | gt
      · exact iff_of_true (encode_lt lt _ _) (List.cons_lt_cons_iff.mpr (.inl lt))
      · rw [append_lt_append_iff, ih]
        simp
      · refine iff_of_false (List.lt_asymm (encode_lt gt _ _)) ?_
        exact List.lt_asymm (List.cons_lt_cons_iff.mpr (.inl gt))

theorem bytes_lt_iff {a b : String} : bytes a < bytes b ↔ a < b := by
  rw [bytes_eq, bytes_eq, encodeAll_lt_iff]
  rfl

/-- Texts are in the order of their bytes. -/
theorem bytes_le_iff {a b : String} : bytes a ≤ bytes b ↔ a ≤ b :=
  not_congr bytes_lt_iff

end DataBinding.Text
