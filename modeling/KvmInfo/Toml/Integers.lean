import Mathlib.Data.Nat.Digits.Defs
import KvmInfo.Go.Runtime
import KvmInfo.Toml.Lexemes

namespace Toml
open Caps

def numeral (body : Bytes) : Bytes := body.filter (· ≠ underscore)

def signed (sign : Bytes) (n : ℕ) : ℤ := if sign = [minus] then -n else n

def IsSign (sign : Bytes) : Prop := sign = [] ∨ sign = [plus] ∨ sign = [minus]

section digits

theorem digitValue_digit {c : UInt8} (h : isDigit c = true) :
    digitValue c = some (Go.digitVal c) := by
  rw [digitValue,if_pos h]
  rfl

theorem digitValue_other {c : UInt8} {d : ℕ} (h : isDigit c = false) (hd : digitValue c = some d) :
    10 ≤ d := by
  rw [digitValue,if_neg (by rw [h]; exact Bool.false_ne_true)] at hd
  split_ifs at hd
  · cases hd
    exact Nat.le_add_left 10 _
  · cases hd
    exact Nat.le_add_left 10 _

theorem scanDigits_ten (value n : ℕ) (s : Bytes) :
    scanDigits 10 value n s =
      ((s.takeWhile isDigit).foldl Go.pushDigit value,n + (s.takeWhile isDigit).length,
        s.dropWhile isDigit) := by
  induction s generalizing value n with
  | nil => rfl
  | cons c s ih =>
    cases hc : isDigit c with
    | true =>
      have hlt : Go.digitVal c < 10 := by
        have := Go.isDecimal_iff.mp hc
        unfold Go.digitVal
        omega
      rw [scanDigits,digitValue_digit hc]
      simp only [if_pos hlt]
      rw [ih,List.takeWhile_cons_of_pos hc,List.dropWhile_cons_of_pos hc,List.foldl_cons,
        List.length_cons,Go.pushDigit,Nat.add_assoc,Nat.add_comm 1]
    | false =>
      have hneg : ¬isDigit c = true := by rw [hc]; exact Bool.false_ne_true
      rw [List.takeWhile_cons_of_neg hneg,List.dropWhile_cons_of_neg hneg,scanDigits]
      cases hd : digitValue c with
      | none => rfl
      | some d => simp only [if_neg (Nat.not_lt.mpr (digitValue_other hc hd))]; rfl

theorem digit_not_space {c : UInt8} (h : isDigit c = true) : isSpaceByte c = false := by
  have hc := Go.isDecimal_iff.mp h
  simp only [isSpaceByte,space,Bool.or_eq_false_iff,Bool.and_eq_false_iff,decide_eq_false_iff_not,
    UInt8.le_iff_toNat_le,← UInt8.toNat_inj]
  simp
  omega

theorem digit_not_sign {c : UInt8} (h : isDigit c = true) : c ≠ plus ∧ c ≠ minus := by
  constructor <;> rintro rfl <;> exact absurd h (by decide)

end digits

section strtoll
variable {sign s : Bytes} {c : UInt8}

theorem signOf_append (hsign : IsSign sign) (hc : isDigit c = true) :
    signOf (sign ++ c :: s) = sign := by
  rcases hsign with rfl | rfl | rfl
  · exact if_neg (not_or.mpr (digit_not_sign hc))
  · rfl
  · rfl

theorem strtoll_decimal (hsign : IsSign sign) (hc : isDigit c = true) (h0 : c ≠ 0x30) :
    strtoll (sign ++ c :: s) =
      (let v := signed sign (Go.decimal ((c :: s).takeWhile isDigit))
       if int64Min ≤ v ∧ v ≤ int64Max then some v else none,(c :: s).dropWhile isDigit) := by
  have hspace : ¬isSpaceByte c = true := by rw [digit_not_space hc]; exact Bool.false_ne_true
  have hhex : hexPrefixed (c :: s) = false := by
    rcases s with _ | ⟨b,_ | ⟨d,s⟩⟩
    · rfl
    · rfl
    · simp [hexPrefixed,h0]
  have hscan := scanDigits_ten 0 0 (c :: s)
  have hn : 0 + ((c :: s).takeWhile isDigit).length ≠ 0 := by
    rw [List.takeWhile_cons_of_pos hc,List.length_cons]
    omega
  have hdigits : (if hexPrefixed (c :: s) then scanDigits 16 0 0 ((c :: s).drop 2)
      else if (c :: s).head? = some 0x30 then scanDigits 8 0 0 (c :: s)
      else scanDigits 10 0 0 (c :: s)) =
        (Go.decimal ((c :: s).takeWhile isDigit),0 + ((c :: s).takeWhile isDigit).length,
          (c :: s).dropWhile isDigit) := by
    rw [hhex,if_neg Bool.false_ne_true,if_neg (by simpa using h0),hscan,Go.decimal]
  have hdrop : (sign ++ c :: s).dropWhile isSpaceByte = sign ++ c :: s := by
    rcases hsign with rfl | rfl | rfl
    · exact List.dropWhile_cons_of_neg hspace
    · exact List.dropWhile_cons_of_neg (by decide)
    · exact List.dropWhile_cons_of_neg (by decide)
  have hneg : (sign ++ c :: s).head? = some minus ↔ sign = [minus] := by
    rcases hsign with rfl | rfl | rfl
    · simpa using (digit_not_sign hc).2
    · simp
    · simp
  have hbody : (if (sign ++ c :: s).head? = some minus ∨ (sign ++ c :: s).head? = some plus
      then (sign ++ c :: s).tail else sign ++ c :: s) = c :: s := by
    rcases hsign with rfl | rfl | rfl
    · exact if_neg (by simpa [not_or] using (digit_not_sign hc).symm)
    · exact if_pos (Or.inr rfl)
    · exact if_pos (Or.inl rfl)
  rw [strtoll,hdrop]
  simp only [hbody,hdigits,if_neg hn]
  simp only [hneg]
  rfl

end strtoll

section integers
variable {sign body : Bytes} {c : UInt8} {v : ℤ}

theorem numeral_cons {c : UInt8} {s : Bytes} (hc : isDigit c = true) :
    numeral (c :: s) = c :: numeral s := by
  have hne : c ≠ underscore := by
    rintro rfl
    exact absurd hc (by decide)
  exact List.filter_cons_of_pos (by simpa using hne)

theorem stripInto_eq (s : Bytes) :
    stripInto sign s =
      if (sign ++ numeral s).length < bufSize then some (sign ++ numeral s) else none := rfl

theorem strtoll_whole {s : Bytes} (hsign : IsSign sign) (hc : isDigit c = true) (h0 : c ≠ 0x30) :
    strtoll (sign ++ c :: s) = (some v,[]) ↔
      (∀ b ∈ c :: s, isDigit b = true) ∧ v = signed sign (Go.decimal (c :: s)) ∧
        int64Min ≤ v ∧ v ≤ int64Max := by
  rw [strtoll_decimal hsign hc h0,Prod.mk.injEq,List.dropWhile_eq_nil_iff,and_comm]
  refine and_congr_right fun hall => ?_
  rw [List.takeWhile_eq_self_iff.mpr hall]
  constructor
  · intro h
    obtain ⟨hrange,hv⟩ := Option.ite_none_right_eq_some.mp h
    cases hv
    exact ⟨rfl,hrange⟩
  · rintro ⟨rfl,hrange⟩
    exact if_pos hrange

theorem signed_zero (hsign : IsSign sign) : signed sign 0 = 0 := by
  rcases hsign with rfl | rfl | rfl <;> rfl

theorem sign_length (hsign : IsSign sign) : sign.length ≤ 1 := by
  rcases hsign with rfl | rfl | rfl <;> decide

theorem tomlRtoi_zero {s : Bytes} (hsign : IsSign sign) :
    tomlRtoi (sign ++ 0x30 :: s) = some v ↔ s = [] ∧ v = 0 := by
  have hdigit : isDigit 0x30 = true := by decide
  rw [tomlRtoi,signOf_append hsign hdigit,List.drop_left,List.head?_cons,List.tail_cons,if_pos rfl]
  cases s with
  | nil => simp [eq_comm]
  | cons b s => simp

theorem tomlRtoi_nonzero {s : Bytes} (hsign : IsSign sign) (hc : isDigit c = true) (h0 : c ≠ 0x30) :
    tomlRtoi (sign ++ c :: s) = some v ↔
      (sign ++ numeral (c :: s)).length < bufSize ∧
        strtoll (sign ++ numeral (c :: s)) = (some v,[]) := by
  have hne : ¬(c :: s).head? = some 0x30 := by simpa using h0
  rw [tomlRtoi,signOf_append hsign hc,List.drop_left,if_neg hne,stripInto_eq]
  split_ifs with hroom
  · rw [Option.bind_eq_bind,Option.bind_some,and_iff_right hroom]
    rcases strtoll (sign ++ numeral (c :: s)) with ⟨_ | w,_ | ⟨b,rest⟩⟩ <;> simp
  · exact iff_of_false (Option.some_ne_none v).symm fun h => hroom h.1

theorem tomlRtoi_numeral (hsign : IsSign sign) (hc : isDigit c = true) (hbody : body.head? = some c) :
    tomlRtoi (sign ++ body) = some v ↔
      ¬Go.LeadingZero body ∧ (∀ b ∈ numeral body, isDigit b = true) ∧
        (sign ++ numeral body).length < bufSize ∧ v = signed sign (Go.decimal (numeral body)) ∧
        int64Min ≤ v ∧ v ≤ int64Max := by
  obtain ⟨s,rfl⟩ := List.head?_eq_some_iff.mp hbody
  by_cases h0 : c = 0x30
  · subst h0
    rw [tomlRtoi_zero hsign]
    constructor
    · rintro ⟨rfl,rfl⟩
      have hroom := sign_length hsign
      refine ⟨by decide,by decide +kernel,?_,(signed_zero hsign).symm,by decide,by decide⟩
      rw [List.length_append,bufSize]
      exact Nat.lt_of_le_of_lt (Nat.add_le_add_right hroom 1) (by decide)
    · rintro ⟨hlead,-,-,rfl,-⟩
      have hs : s = [] := by
        by_contra hs
        exact hlead ⟨rfl,by simpa using hs⟩
      subst hs
      exact ⟨rfl,signed_zero hsign⟩
  · have hlead : ¬Go.LeadingZero (c :: s) := fun h => h0 (by simpa using h.1)
    rw [tomlRtoi_nonzero hsign hc h0,numeral_cons hc,strtoll_whole hsign hc h0,and_iff_right hlead]
    tauto

theorem tomlRtoi_numeral_thousand : tomlRtoi ([minus] ++ cstr "1_000") = some (-1000) :=
  (tomlRtoi_numeral (c := 0x31) (Or.inr (Or.inr rfl)) (by decide) rfl).mpr
    ⟨by decide,by decide +kernel,by decide +kernel,by decide +kernel,by decide,by decide⟩

theorem numeral_digits {s : Bytes} (h : ∀ b ∈ s, isDigit b = true) : numeral s = s := by
  refine List.filter_eq_self.mpr fun b hb => ?_
  have hb := h b hb
  rw [decide_eq_true_eq]
  rintro rfl
  exact absurd hb (by decide)

theorem tomlRtoi_signed (hsign : IsSign sign) {n : ℕ} (hn : n ≤ 2 ^ 63)
    (hmin : int64Min ≤ signed sign n) (hmax : signed sign n ≤ int64Max) :
    tomlRtoi (sign ++ Go.formatInt n) = some (signed sign n) := by
  obtain ⟨c,hc,hhead⟩ := Go.formatInt_head n
  have hdigits := Go.formatInt_decimal n
  have hnum : numeral (Go.formatInt n) = Go.formatInt n := numeral_digits hdigits
  have hlen : (Go.formatInt n).length ≤ 19 :=
    Go.formatInt_length (by decide) (Nat.lt_of_le_of_lt hn (by decide))
  have hsl := sign_length hsign
  rw [tomlRtoi_numeral hsign hc hhead,hnum,Go.decimal_formatInt]
  refine ⟨Go.formatInt_leadingZero n,hdigits,?_,rfl,hmin,hmax⟩
  rw [List.length_append,bufSize]
  omega

theorem tomlRtoi_formatInt (hmin : int64Min ≤ v) (hmax : v ≤ int64Max) :
    tomlRtoi (Go.formatInt v) = some v := by
  unfold int64Min at hmin
  unfold int64Max at hmax
  cases v with
  | ofNat n =>
    have hn : (n : ℤ) ≤ 2 ^ 63 - 1 := hmax
    exact tomlRtoi_signed (Or.inl rfl) (by omega) (by unfold int64Min; exact hmin) hmax
  | negSucc n =>
    have hv : signed [minus] (n + 1) = Int.negSucc n := rfl
    rw [Go.formatInt_negSucc,← hv]
    exact tomlRtoi_signed (Or.inr (Or.inr rfl)) (by omega) hmin hmax

end integers

end Toml
