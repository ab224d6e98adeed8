import Mathlib.Tactic

namespace Go

abbrev Str := List UInt8

def str (s : String) : Str := s.toList.map (fun c => UInt8.ofNat c.toNat)

inductive Panic where
  | index (i : ℤ) (len : ℕ)
  | slice (lo hi : ℤ) (len : ℕ)
  deriving DecidableEq, Repr

abbrev Eval := Except Panic

section slices
variable {α : Type}

def index (xs : List α) (i : ℤ) : Eval α :=
  if i < 0 then .error (.index i xs.length)
  else
    match xs[i.toNat]? with
    | some x => .ok x
    | none => .error (.index i xs.length)

def slice (xs : List α) (lo hi : ℤ) : Eval (List α) :=
  if 0 ≤ lo ∧ lo ≤ hi ∧ hi ≤ xs.length then .ok ((xs.take hi.toNat).drop lo.toNat)
  else .error (.slice lo hi xs.length)

def sliceTo (xs : List α) (hi : ℤ) : Eval (List α) := slice xs 0 hi

def sliceFrom (xs : List α) (lo : ℤ) : Eval (List α) := slice xs lo xs.length

theorem index_ok (xs : List α) (i : ℕ) (h : i < xs.length) : index xs i = .ok xs[i] := by
  simp [index,h]

theorem index_error (xs : List α) (i : ℕ) (h : xs.length ≤ i) :
    index xs i = .error (.index i xs.length) := by
  simp [index,h]

theorem sliceTo_ok (xs : List α) (i : ℕ) (h : i ≤ xs.length) :
    sliceTo xs i = .ok (xs.take i) := by
  simp [sliceTo,slice,h]

theorem sliceFrom_ok (xs : List α) (i : ℕ) (h : i ≤ xs.length) :
    sliceFrom xs i = .ok (xs.drop i) := by
  simp [sliceFrom,slice,h]

end slices

def split (s : Str) (sep : UInt8) : List Str := s.splitOn sep

def join (xs : List Str) (sep : UInt8) : Str := [sep].intercalate xs

theorem split_mem (s : Str) (sep : UInt8) :
    ∀ x ∈ split s sep, ∀ b ∈ x, b ∈ s ∧ b ≠ sep := by
  induction s with
  | nil => simp [split]
  | cons c s ih =>
    intro x hx b hb
    rw [split,List.splitOn_cons_eq_if_modifyHead] at hx
    by_cases hc : c = sep
    · simp only [hc,beq_self_eq_true,if_true,List.mem_cons] at hx
      rcases hx with rfl | hx
      · simp at hb
      · exact ⟨List.mem_cons_of_mem _ (ih x hx b hb).1,(ih x hx b hb).2⟩
    · rw [if_neg (by simpa using hc)] at hx
      unfold split at ih
      cases hs : s.splitOn sep with
      | nil => simp [hs] at hx
      | cons y ys =>
        rw [hs] at hx ih
        simp only [List.modifyHead_cons,List.mem_cons] at hx
        rcases hx with rfl | hx
        · rcases List.mem_cons.mp hb with rfl | hb
          · exact ⟨by simp,hc⟩
          · exact ⟨List.mem_cons_of_mem _ (ih y (by simp) b hb).1,(ih y (by simp) b hb).2⟩
        · have := ih x (by simp [hx]) b hb
          exact ⟨List.mem_cons_of_mem _ this.1,this.2⟩

theorem split_length (s : Str) (sep : UInt8) : (split s sep).length = s.count sep + 1 := by
  induction s with
  | nil => rfl
  | cons c s ih =>
    rw [split,List.splitOn_cons_eq_if_modifyHead,List.count_cons,← Nat.add_right_comm,← ih]
    split_ifs <;> simp [split]

def isDecimal (b : UInt8) : Bool := 0x30 ≤ b && b ≤ 0x39

def digitVal (b : UInt8) : ℕ := b.toNat - 0x30

def pushDigit (n : ℕ) (b : UInt8) : ℕ := n * 10 + digitVal b

def decimal (s : Str) : ℕ := s.foldl pushDigit 0

def maxUint64 : ℕ := 2 ^ 64 - 1
def maxInt64 : ℤ := 2 ^ 63 - 1
def minInt64 : ℤ := -2 ^ 63

inductive NumErr where
  | errSyntax
  | errRange
  deriving DecidableEq, Repr

def NumErr.text : NumErr → Str
  | .errSyntax => str "invalid syntax"
  | .errRange => str "value out of range"

def parseUintLoop (n : ℕ) : Str → ℕ × Option NumErr
  | [] => (n,none)
  | b :: s =>
      if !isDecimal b then (0,some .errSyntax)
      else if n ≥ maxUint64 / 10 + 1 then (maxUint64,some .errRange)
      else if pushDigit n b > maxUint64 then (maxUint64,some .errRange)
      else parseUintLoop (pushDigit n b) s

def parseUint (s : Str) : ℕ × Option NumErr :=
  if s = [] then (0,some .errSyntax) else parseUintLoop 0 s

def parseInt (s0 : Str) : ℤ × Option NumErr :=
  if s0 = [] then (0,some .errSyntax)
  else
    let neg := s0.head? = some 0x2D
    let s := if s0.head? = some 0x2B ∨ neg then s0.tail else s0
    match parseUint s with
    | (_,some .errSyntax) => (0,some .errSyntax)
    | (un,_) =>
        if ¬neg ∧ (un : ℤ) > maxInt64 then (maxInt64,some .errRange)
        else if neg ∧ -(un : ℤ) < minInt64 then (minInt64,some .errRange)
        else (if neg then -un else un,none)

def formatInt (i : ℤ) : Str :=
  let digits := (Nat.toDigits 10 i.natAbs).map (fun c => UInt8.ofNat c.toNat)
  if i < 0 then 0x2D :: digits else digits

theorem isDecimal_iff {b : UInt8} : isDecimal b = true ↔ 48 ≤ b.toNat ∧ b.toNat ≤ 57 := by
  simp [isDecimal,UInt8.le_iff_toNat_le]

theorem le_foldl_pushDigit (s : Str) (n : ℕ) : n ≤ s.foldl pushDigit n := by
  induction s generalizing n with
  | nil => exact le_rfl
  | cons b s ih =>
    have h : n ≤ pushDigit n b := by unfold pushDigit; omega
    exact h.trans (ih _)

theorem parseUintLoop_decimal (s : Str) (n : ℕ) (hs : ∀ b ∈ s, isDecimal b = true)
    (h : s.foldl pushDigit n ≤ maxUint64) :
    parseUintLoop n s = (s.foldl pushDigit n,none) := by
  induction s generalizing n with
  | nil => rfl
  | cons b s ih =>
    simp only [List.mem_cons,forall_eq_or_imp] at hs
    rw [List.foldl_cons] at h ⊢
    have hn : pushDigit n b ≤ maxUint64 := (le_foldl_pushDigit s _).trans h
    have hc : ¬n ≥ maxUint64 / 10 + 1 := by unfold pushDigit at hn; omega
    rw [parseUintLoop,if_neg (by simp [hs.1]),if_neg hc,if_neg (by omega)]
    exact ih _ hs.2 h

theorem head?_decimal {s : Str} {b : UInt8} (hs : ∀ b ∈ s, isDecimal b = true)
    (hb : isDecimal b = false) : s.head? ≠ some b := by
  intro h
  have := hs b (List.mem_of_head? h)
  simp [this] at hb

theorem parseInt_decimal (s : Str) (hne : s ≠ []) (hs : ∀ b ∈ s, isDecimal b = true)
    (h : (decimal s : ℤ) ≤ maxInt64) : parseInt s = ((decimal s : ℤ),none) := by
  have hplus : s.head? ≠ some 0x2B := head?_decimal hs (by decide)
  have hminus : s.head? ≠ some 0x2D := head?_decimal hs (by decide)
  have hu : parseUint s = (decimal s,none) := by
    rw [parseUint,if_neg hne]
    exact parseUintLoop_decimal s 0 hs (by unfold maxInt64 at h; unfold maxUint64; unfold decimal at h; omega)
  simp [parseInt,hne,hplus,hminus,hu,h]

theorem parseUintLoop_range (s : Str) (n : ℕ) (hs : ∀ b ∈ s, isDecimal b = true)
    (h : maxUint64 < s.foldl pushDigit n) (hn : n ≤ maxUint64) :
    parseUintLoop n s = (maxUint64,some .errRange) := by
  induction s generalizing n with
  | nil => exact absurd h (by simpa using hn)
  | cons b s ih =>
    simp only [List.mem_cons,forall_eq_or_imp] at hs
    rw [parseUintLoop,if_neg (by simp [hs.1])]
    split_ifs with h1 h2
    · rfl
    · rfl
    · exact ih _ hs.2 h (by omega)

theorem parseInt_range (s : Str) (hne : s ≠ []) (hs : ∀ b ∈ s, isDecimal b = true)
    (h : maxInt64 < (decimal s : ℤ)) : parseInt s = (maxInt64,some .errRange) := by
  have hplus : s.head? ≠ some 0x2B := head?_decimal hs (by decide)
  have hminus : s.head? ≠ some 0x2D := head?_decimal hs (by decide)
  have hbig : maxInt64 < (maxUint64 : ℤ) := by decide
  by_cases hu : decimal s ≤ maxUint64
  · have : parseUint s = (decimal s,none) := by
      rw [parseUint,if_neg hne]
      exact parseUintLoop_decimal s 0 hs hu
    simp [parseInt,hne,hplus,hminus,this,h]
  · have : parseUint s = (maxUint64,some .errRange) := by
      rw [parseUint,if_neg hne]
      exact parseUintLoop_range s 0 hs (not_le.mp hu) (Nat.zero_le _)
    simp [parseInt,hne,hplus,hminus,this,hbig]

theorem parseInt_nonneg (s : Str) (hs : ∀ b ∈ s, isDecimal b = true) : 0 ≤ (parseInt s).1 := by
  have hplus : s.head? ≠ some 0x2B := head?_decimal hs (by decide)
  have hminus : s.head? ≠ some 0x2D := head?_decimal hs (by decide)
  unfold parseInt
  split_ifs with hne
  · exact le_rfl
  · simp only [hplus,hminus,or_self,if_false,not_false_eq_true,true_and,false_and]
    split
    · exact le_rfl
    · split_ifs
      · decide
      · simp

theorem formatInt_natCast (n : ℕ) :
    formatInt n = (Nat.toDigits 10 n).map (fun c => UInt8.ofNat c.toNat) := by
  simp [formatInt]

theorem formatInt_decimal (n : ℕ) : ∀ b ∈ formatInt n, isDecimal b = true := by
  rw [formatInt_natCast]
  intro b hb
  obtain ⟨c,hc,rfl⟩ := List.mem_map.mp hb
  have hd := Nat.isDigit_of_mem_toDigits (by decide) (by decide) hc
  have hr : 48 ≤ c.toNat ∧ c.toNat ≤ 57 := by
    simpa [Char.isDigit,UInt32.le_iff_toNat_le] using hd
  rw [isDecimal_iff,UInt8.toNat_ofNat_of_lt' (Nat.lt_of_le_of_lt hr.2 (by decide))]
  exact hr

theorem decimal_formatInt (n : ℕ) : decimal (formatInt n) = n := by
  have hfold (cs : List Char) (hcs : ∀ c ∈ cs, c.isDigit = true) (m : ℕ) :
      (cs.map (fun c => UInt8.ofNat c.toNat)).foldl pushDigit m = Nat.ofDigitChars 10 cs m := by
    induction cs generalizing m with
    | nil => simp
    | cons c cs ih =>
      have hr : 48 ≤ c.toNat ∧ c.toNat ≤ 57 := by
        simpa [Char.isDigit,UInt32.le_iff_toNat_le] using hcs c (by simp)
      have hc : (UInt8.ofNat c.toNat).toNat = c.toNat :=
        UInt8.toNat_ofNat_of_lt' (Nat.lt_of_le_of_lt hr.2 (by decide))
      rw [List.map_cons,List.foldl_cons,ih (fun d hd => hcs d (by simp [hd])),Nat.ofDigitChars_cons]
      simp [pushDigit,digitVal,hc,Nat.mul_comm]
  rw [formatInt_natCast,decimal,hfold _ (fun c hc => Nat.isDigit_of_mem_toDigits (by decide) (by decide) hc),
    Nat.ofDigitChars_ten_toDigits]

theorem formatInt_negSucc (n : ℕ) : formatInt (Int.negSucc n) = 0x2D :: formatInt (n + 1 : ℕ) := by
  rw [formatInt_natCast,formatInt,if_pos (Int.negSucc_lt_zero n),Int.natAbs_negSucc]

theorem formatInt_injective : Function.Injective formatInt := by
  have hnat (m n : ℕ) (h : formatInt m = formatInt n) : m = n := by
    rw [← decimal_formatInt m,h,decimal_formatInt n]
  have hsign (m n : ℕ) : formatInt m ≠ formatInt (Int.negSucc n) := by
    intro h
    have := formatInt_decimal m 0x2D (by rw [h,formatInt_negSucc]; simp)
    exact absurd this (by decide)
  intro a b h
  cases a with
  | ofNat m =>
    cases b with
    | ofNat n => exact congrArg Int.ofNat (hnat m n h)
    | negSucc n => exact absurd h (hsign m n)
  | negSucc m =>
    cases b with
    | ofNat n => exact absurd h.symm (hsign n m)
    | negSucc n =>
      rw [formatInt_negSucc,formatInt_negSucc] at h
      have := hnat _ _ (List.cons.inj h).2
      rw [Nat.succ.inj this]

theorem digitChar_digitVal {b : UInt8} (h : isDecimal b = true) :
    UInt8.ofNat (digitVal b).digitChar.toNat = b := by
  have hb := isDecimal_iff.mp h
  obtain ⟨d,hd,hlt⟩ : ∃ d, b.toNat = 48 + d ∧ d < 10 := ⟨b.toNat - 48,by omega,by omega⟩
  have hv : digitVal b = d := by rw [digitVal,hd]; omega
  rw [hv,← UInt8.toNat_inj,hd]
  interval_cases d <;> rfl

def LeadingZero (x : Str) : Prop := x.head? = some 0x30 ∧ x ≠ [0x30]

instance (x : Str) : Decidable (LeadingZero x) := inferInstanceAs (Decidable (_ ∧ _))

theorem decimal_concat (x : Str) (b : UInt8) : decimal (x ++ [b]) = pushDigit (decimal x) b := by
  simp [decimal]

theorem decimal_pos {b : UInt8} {x : Str} (hb : isDecimal b = true) (h0 : b ≠ 0x30) :
    0 < decimal (b :: x) := by
  have hle := le_foldl_pushDigit x (pushDigit 0 b)
  have hb := isDecimal_iff.mp hb
  have hne : b.toNat ≠ 48 := fun h => h0 (UInt8.toNat_inj.mp h)
  rw [decimal,List.foldl_cons]
  unfold pushDigit digitVal at hle
  unfold pushDigit digitVal
  omega

theorem formatInt_decimal_eq (x : Str) (hne : x ≠ []) (hx : ∀ b ∈ x, isDecimal b = true)
    (hz : ¬LeadingZero x) : formatInt (decimal x) = x := by
  induction x using List.reverseRecOn with
  | nil => exact absurd rfl hne
  | append_singleton x b ih =>
    have hb := hx b (by simp)
    have hval : digitVal b < 10 := by have := isDecimal_iff.mp hb; unfold digitVal; omega
    cases x with
    | nil =>
      have hd : decimal [b] = digitVal b := by simp [decimal,pushDigit]
      rw [formatInt_natCast,List.nil_append,hd,Nat.toDigits_of_lt_base hval]
      simp [digitChar_digitVal hb]
    | cons c x =>
      have hc : c ≠ 0x30 := by
        rintro rfl
        exact hz ⟨rfl,by simp⟩
      have hpos : 0 < decimal (c :: x) := decimal_pos (hx c (by simp)) hc
      have hpre := ih (by simp) (fun a ha => hx a (List.mem_append_left [b] ha))
        (fun h => hc (by simpa using h.1))
      have hsum : pushDigit (decimal (c :: x)) b = 10 * decimal (c :: x) + digitVal b := by
        rw [pushDigit,Nat.mul_comm]
      rw [formatInt_natCast] at hpre ⊢
      rw [decimal_concat,hsum,← Nat.toDigits_append_toDigits (by decide) hpos hval,List.map_append,hpre,
        Nat.toDigits_of_lt_base hval]
      simp [digitChar_digitVal hb]

theorem decimal_lt {x : Str} (hx : ∀ b ∈ x, isDecimal b = true) : decimal x < 10 ^ x.length := by
  induction x using List.reverseRecOn with
  | nil => exact Nat.one_pos
  | append_singleton x b ih =>
    have hlt := ih fun a ha => hx a (List.mem_append_left [b] ha)
    have hb := isDecimal_iff.mp (hx b (List.mem_append_right x (List.mem_singleton_self b)))
    rw [decimal_concat,pushDigit,digitVal,List.length_append,List.length_singleton,Nat.pow_succ]
    omega

theorem formatInt_length {n e : ℕ} (he : 0 < e) (hn : n < 10 ^ e) : (formatInt n).length ≤ e := by
  rw [formatInt_natCast,List.length_map]
  exact Nat.toDigits_length 10 n e he hn

theorem formatInt_head (n : ℕ) : ∃ b, isDecimal b = true ∧ (formatInt n).head? = some b := by
  cases h : formatInt n with
  | nil =>
    rw [formatInt_natCast,List.map_eq_nil_iff] at h
    exact absurd (Nat.length_toDigits_pos (b := 10) (n := n)) (by rw [h]; decide)
  | cons b x =>
    refine ⟨b,formatInt_decimal n b ?_,rfl⟩
    rw [h]
    exact List.mem_cons_self

theorem formatInt_leadingZero (n : ℕ) : ¬LeadingZero (formatInt n) := by
  rintro ⟨hhead,hlong⟩
  obtain ⟨x,hx⟩ := List.head?_eq_some_iff.mp hhead
  have hdigits : ∀ b ∈ x, isDecimal b = true := by
    intro b hb
    exact formatInt_decimal n b (by rw [hx]; exact List.mem_cons_of_mem 0x30 hb)
  have hval : decimal x = n := by
    have hdecimal := decimal_formatInt n
    rwa [hx] at hdecimal
  have hne : x ≠ [] := by
    rintro rfl
    exact hlong hx
  have hle := formatInt_length (List.length_pos_of_ne_nil hne) (hval ▸ decimal_lt hdigits)
  rw [hx,List.length_cons] at hle
  omega

end Go
