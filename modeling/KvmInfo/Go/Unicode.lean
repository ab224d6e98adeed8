import KvmInfo.Go.Runtime

namespace Go

abbrev Rune := ℕ

def runeError : Rune := 0xFFFD

def isCont (b : UInt8) : Bool := 0x80 ≤ b && b ≤ 0xBF

-- The size of the encoding a first byte announces and the range of its second byte.
def acceptRange (b : UInt8) : Option (ℕ × UInt8 × UInt8) :=
  if 0xC2 ≤ b ∧ b ≤ 0xDF then some (2,0x80,0xBF)
  else if b = 0xE0 then some (3,0xA0,0xBF)
  else if b = 0xED then some (3,0x80,0x9F)
  else if 0xE1 ≤ b ∧ b ≤ 0xEF then some (3,0x80,0xBF)
  else if b = 0xF0 then some (4,0x90,0xBF)
  else if 0xF1 ≤ b ∧ b ≤ 0xF3 then some (4,0x80,0xBF)
  else if b = 0xF4 then some (4,0x80,0x8F)
  else none

def low (b : UInt8) (n : ℕ) : ℕ := b.toNat % n

def decodeMulti (b0 : UInt8) (s : Str) : Rune × ℕ :=
  match acceptRange b0,s with
  | some (2,lo,hi),b1 :: _ =>
      if lo ≤ b1 ∧ b1 ≤ hi then (low b0 0x20 * 0x40 + low b1 0x40,2) else (runeError,1)
  | some (3,lo,hi),b1 :: b2 :: _ =>
      if lo ≤ b1 ∧ b1 ≤ hi ∧ isCont b2 then
        (low b0 0x10 * 0x1000 + low b1 0x40 * 0x40 + low b2 0x40,3)
      else (runeError,1)
  | some (4,lo,hi),b1 :: b2 :: b3 :: _ =>
      if lo ≤ b1 ∧ b1 ≤ hi ∧ isCont b2 ∧ isCont b3 then
        (low b0 0x08 * 0x40000 + low b1 0x40 * 0x1000 + low b2 0x40 * 0x40 + low b3 0x40,4)
      else (runeError,1)
  | _,_ => (runeError,1)

def decodeRune : Str → Rune × ℕ
  | [] => (runeError,0)
  | b0 :: s => if b0 < 0x80 then (b0.toNat,1) else decodeMulti b0 s

-- `skip` bytes still belong to the rune emitted last.
def rangeFrom (skip i : ℕ) : Str → List (ℕ × Rune)
  | [] => []
  | b :: s =>
      match skip with
      | k + 1 => rangeFrom k (i + 1) s
      | 0 => (i,(decodeRune (b :: s)).1) :: rangeFrom ((decodeRune (b :: s)).2 - 1) (i + 1) s

def rangeString (s : Str) : List (ℕ × Rune) := rangeFrom 0 0 s

def maxLatin1 : Rune := 0xFF

def digitTable : List (Rune × Rune) :=
  [(0x0030,0x0039),(0x0660,0x0669),(0x06f0,0x06f9),(0x07c0,0x07c9),(0x0966,0x096f),
   (0x09e6,0x09ef),(0x0a66,0x0a6f),(0x0ae6,0x0aef),(0x0b66,0x0b6f),(0x0be6,0x0bef),
   (0x0c66,0x0c6f),(0x0ce6,0x0cef),(0x0d66,0x0d6f),(0x0de6,0x0def),(0x0e50,0x0e59),
   (0x0ed0,0x0ed9),(0x0f20,0x0f29),(0x1040,0x1049),(0x1090,0x1099),(0x17e0,0x17e9),
   (0x1810,0x1819),(0x1946,0x194f),(0x19d0,0x19d9),(0x1a80,0x1a89),(0x1a90,0x1a99),
   (0x1b50,0x1b59),(0x1bb0,0x1bb9),(0x1c40,0x1c49),(0x1c50,0x1c59),(0xa620,0xa629),
   (0xa8d0,0xa8d9),(0xa900,0xa909),(0xa9d0,0xa9d9),(0xa9f0,0xa9f9),(0xaa50,0xaa59),
   (0xabf0,0xabf9),(0xff10,0xff19),(0x104a0,0x104a9),(0x11066,0x1106f),(0x110f0,0x110f9),
   (0x11136,0x1113f),(0x111d0,0x111d9),(0x112f0,0x112f9),(0x11450,0x11459),(0x114d0,0x114d9),
   (0x11650,0x11659),(0x116c0,0x116c9),(0x11730,0x11739),(0x118e0,0x118e9),(0x11c50,0x11c59),
   (0x11d50,0x11d59),(0x16a60,0x16a69),(0x16b50,0x16b59),(0x1d7ce,0x1d7ff),(0x1e950,0x1e959)]

def isDigit (r : Rune) : Bool :=
  if r ≤ maxLatin1 then 0x30 ≤ r && r ≤ 0x39
  else digitTable.any (fun range => range.1 ≤ r && r ≤ range.2)

theorem decodeRune_ascii (b : UInt8) (s : Str) (hb : b < 0x80) :
    decodeRune (b :: s) = (b.toNat,1) := by
  simp [decodeRune,hb]

theorem acceptRange_cont {b lo hi : UInt8} {n : ℕ} (h : acceptRange b = some (n,lo,hi)) :
    0x80 ≤ lo := by
  unfold acceptRange at h
  split_ifs at h <;> cases h <;> decide

theorem isCont_le {b : UInt8} (h : isCont b = true) : 0x80 ≤ b := by
  simp only [isCont,Bool.and_eq_true,decide_eq_true_eq] at h
  exact h.1

theorem decodeMulti_cont (b0 : UInt8) (s : Str) :
    decodeMulti b0 s = (runeError,1) ∨ ∀ c ∈ s.take ((decodeMulti b0 s).2 - 1), 0x80 ≤ c := by
  unfold decodeMulti
  split
  · rename_i lo hi b1 t h
    split_ifs with hr
    · exact Or.inr (by simpa using UInt8.le_trans (acceptRange_cont h) hr.1)
    · exact Or.inl rfl
  · rename_i lo hi b1 b2 t h
    split_ifs with hr
    · exact Or.inr (by simpa using ⟨UInt8.le_trans (acceptRange_cont h) hr.1,isCont_le hr.2.2⟩)
    · exact Or.inl rfl
  · rename_i lo hi b1 b2 b3 t h
    split_ifs with hr
    · exact Or.inr (by
        simpa using ⟨UInt8.le_trans (acceptRange_cont h) hr.1,isCont_le hr.2.2.1,isCont_le hr.2.2.2⟩)
    · exact Or.inl rfl
  · exact Or.inl rfl

theorem isDigit_ascii (b : UInt8) (hb : b < 0x80) : isDigit b.toNat = isDecimal b := by
  have h : b.toNat < 0x80 := by simpa [UInt8.lt_iff_toNat_lt] using hb
  have hl : b.toNat ≤ maxLatin1 := by unfold maxLatin1; omega
  simp [isDigit,hl,isDecimal,UInt8.le_iff_toNat_le]

end Go
