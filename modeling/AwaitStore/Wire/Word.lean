import AwaitStore.Data

namespace AwaitStore.Wire

def word16 (w : UInt16) : Bytes := [UInt8.ofNat (w.toNat / 256), UInt8.ofNat w.toNat]

def word32 (w : UInt32) : Bytes :=
  [UInt8.ofNat (w.toNat / 16777216), UInt8.ofNat (w.toNat / 65536), UInt8.ofNat (w.toNat / 256),
    UInt8.ofNat w.toNat]

def ofWord16 (b₁ b₀ : UInt8) : UInt16 := UInt16.ofNat (b₁.toNat * 256 + b₀.toNat)

def ofWord32 (b₃ b₂ b₁ b₀ : UInt8) : UInt32 :=
  UInt32.ofNat (((b₃.toNat * 256 + b₂.toNat) * 256 + b₁.toNat) * 256 + b₀.toNat)

theorem length_word16 (w : UInt16) : (word16 w).length = 2 := rfl

theorem length_word32 (w : UInt32) : (word32 w).length = 4 := rfl

theorem word16_ofWord16 (b₁ b₀ : UInt8) : word16 (ofWord16 b₁ b₀) = [b₁, b₀] := by
  have h₁ := b₁.toNat_lt
  have h₀ := b₀.toNat_lt
  simp only [word16, ofWord16, UInt16.toNat_ofNat', List.cons.injEq, and_true]
  constructor <;> apply UInt8.toNat_inj.mp <;> simp only [UInt8.toNat_ofNat'] <;> omega

theorem ofWord32_word32 (w : UInt32) :
    ofWord32 (UInt8.ofNat (w.toNat / 16777216)) (UInt8.ofNat (w.toNat / 65536))
      (UInt8.ofNat (w.toNat / 256)) (UInt8.ofNat w.toNat) = w := by
  apply UInt32.toNat_inj.mp
  have := w.toNat_lt
  simp only [ofWord32, UInt32.toNat_ofNat', UInt8.toNat_ofNat']
  omega

theorem word32_ofWord32 (b₃ b₂ b₁ b₀ : UInt8) :
    word32 (ofWord32 b₃ b₂ b₁ b₀) = [b₃, b₂, b₁, b₀] := by
  have h₃ := b₃.toNat_lt
  have h₂ := b₂.toNat_lt
  have h₁ := b₁.toNat_lt
  have h₀ := b₀.toNat_lt
  simp only [word32, ofWord32, UInt32.toNat_ofNat', List.cons.injEq, and_true]
  refine ⟨?_, ?_, ?_, ?_⟩ <;> apply UInt8.toNat_inj.mp <;> simp only [UInt8.toNat_ofNat'] <;> omega

end AwaitStore.Wire
