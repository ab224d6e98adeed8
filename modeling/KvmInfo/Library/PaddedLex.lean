import Mathlib.Tactic

namespace PaddedLex

variable {α : Type}

structure Comparison (cmp : α → α → ℤ) : Prop where
  zero_iff : ∀ x y, cmp x y = 0 ↔ x = y
  sign : ∀ x y, cmp x y = -1 ∨ cmp x y = 0 ∨ cmp x y = 1

def padLeft (cmp : α → α → ℤ) (d : α) : List α → ℤ
  | [] => 0
  | y :: ys => if cmp d y ≠ 0 then cmp d y else padLeft cmp d ys

def paddedCmp (cmp : α → α → ℤ) (d : α) : List α → List α → ℤ
  | [], ys => padLeft cmp d ys
  | x :: xs, ys =>
      if cmp x (ys.headD d) ≠ 0 then cmp x (ys.headD d) else paddedCmp cmp d xs ys.tail

def part (d : α) (xs : List α) (i : ℕ) : α := xs.getD i d

def FirstDiff (f g : ℕ → α) (i : ℕ) : Prop := (∀ j < i, f j = g j) ∧ f i ≠ g i

@[simp] theorem part_nil (d : α) (i : ℕ) : part d [] i = d := by simp [part]
@[simp] theorem part_zero (d x : α) (xs : List α) : part d (x :: xs) 0 = x := rfl
@[simp] theorem part_succ (d x : α) (xs : List α) (i : ℕ) :
    part d (x :: xs) (i + 1) = part d xs i := by simp [part]

theorem FirstDiff.symm {f g : ℕ → α} {i : ℕ} (h : FirstDiff f g i) : FirstDiff g f i :=
  ⟨fun j hj => (h.1 j hj).symm,h.2.symm⟩

theorem FirstDiff.unique {f g : ℕ → α} {i j : ℕ} (hi : FirstDiff f g i) (hj : FirstDiff f g j) :
    i = j := by
  rcases lt_trichotomy i j with h | h | h
  · exact absurd (hj.1 i h) hi.2
  · exact h
  · exact absurd (hi.1 j h) hj.2

theorem FirstDiff.congr_right {f g h : ℕ → α} {i : ℕ} (hi : FirstDiff f g i)
    (hgh : ∀ j ≤ i, g j = h j) : FirstDiff f h i :=
  ⟨fun j hj => (hi.1 j hj).trans (hgh j hj.le),by rw [← hgh i le_rfl]; exact hi.2⟩

theorem FirstDiff.congr_left {f g h : ℕ → α} {i : ℕ} (hi : FirstDiff g h i)
    (hfg : ∀ j ≤ i, f j = g j) : FirstDiff f h i :=
  (hi.symm.congr_right (fun j hj => (hfg j hj).symm)).symm

theorem eq_or_firstDiff (f g : ℕ → α) : f = g ∨ ∃ i, FirstDiff f g i := by
  classical
  by_cases h : ∃ i, f i ≠ g i
  · refine Or.inr ⟨Nat.find h,fun j hj => ?_,Nat.find_spec h⟩
    exact not_not.mp (Nat.find_min h hj)
  · exact Or.inl (funext fun i => not_not.mp (not_exists.mp h i))

theorem firstDiff_succ {f g : ℕ → α} {i : ℕ} (h0 : f 0 = g 0) :
    FirstDiff f g (i + 1) ↔ FirstDiff (fun j => f (j + 1)) (fun j => g (j + 1)) i := by
  constructor
  · rintro ⟨hlt,hne⟩
    exact ⟨fun j hj => hlt (j + 1) (by omega),hne⟩
  · rintro ⟨hlt,hne⟩
    refine ⟨fun j hj => ?_,hne⟩
    cases j with
    | zero => exact h0
    | succ j => exact hlt j (by omega)

section comparison
variable {cmp : α → α → ℤ} {d : α}

theorem part_zero_eq_headD (ys : List α) : part d ys 0 = ys.headD d := by
  cases ys <;> rfl

theorem paddedCmp_step_eq (hc : Comparison cmp) (xs ys : List α)
    (h : part d xs 0 = part d ys 0) :
    paddedCmp cmp d xs ys = paddedCmp cmp d xs.tail ys.tail := by
  have hz := (hc.zero_iff _ _).mpr h
  rw [part_zero_eq_headD ys] at hz
  cases xs with
  | nil =>
    cases ys with
    | nil => rfl
    | cons y ys => exact if_neg (not_not.mpr hz)
  | cons x xs => exact if_neg (not_not.mpr hz)

theorem paddedCmp_step_ne (hc : Comparison cmp) (xs ys : List α)
    (h : part d xs 0 ≠ part d ys 0) :
    paddedCmp cmp d xs ys = cmp (part d xs 0) (part d ys 0) := by
  have hz := mt (hc.zero_iff _ _).mp h
  rw [part_zero_eq_headD ys] at hz ⊢
  cases xs with
  | nil =>
    cases ys with
    | nil => exact absurd rfl h
    | cons y ys => exact if_pos hz
  | cons x xs => exact if_pos hz

theorem part_tail (xs : List α) : part d xs.tail = fun i => part d xs (i + 1) := by
  cases xs with
  | nil => funext i; simp
  | cons x xs => funext i; simp

theorem paddedCmp_of_agree (hc : Comparison cmp) (n : ℕ) (xs ys : List α)
    (hn : xs.length + ys.length ≤ n) (h : part d xs = part d ys) : paddedCmp cmp d xs ys = 0 := by
  induction n generalizing xs ys with
  | zero =>
    have hx : xs = [] := List.length_eq_zero_iff.mp (by omega)
    have hy : ys = [] := List.length_eq_zero_iff.mp (by omega)
    simp [hx,hy,paddedCmp,padLeft]
  | succ n ih =>
    by_cases he : xs = [] ∧ ys = []
    · simp [he.1,he.2,paddedCmp,padLeft]
    · rw [paddedCmp_step_eq hc xs ys (congrFun h 0)]
      apply ih
      · cases xs <;> cases ys <;> simp at he hn ⊢ <;> omega
      · rw [part_tail,part_tail,h]

theorem paddedCmp_of_firstDiff (hc : Comparison cmp) (i : ℕ) (xs ys : List α)
    (h : FirstDiff (part d xs) (part d ys) i) :
    paddedCmp cmp d xs ys = cmp (part d xs i) (part d ys i) := by
  induction i generalizing xs ys with
  | zero => exact paddedCmp_step_ne hc xs ys h.2
  | succ i ih =>
    have h0 := h.1 0 (by omega)
    rw [paddedCmp_step_eq hc xs ys h0,ih]
    · simp [part_tail]
    · rw [part_tail,part_tail]
      exact (firstDiff_succ h0).mp h

theorem paddedCmp_eq_zero_iff (hc : Comparison cmp) (xs ys : List α) :
    paddedCmp cmp d xs ys = 0 ↔ part d xs = part d ys := by
  constructor
  · intro h
    rcases eq_or_firstDiff (part d xs) (part d ys) with he | ⟨i,hi⟩
    · exact he
    · rw [paddedCmp_of_firstDiff hc i xs ys hi,hc.zero_iff] at h
      exact absurd h hi.2
  · exact paddedCmp_of_agree hc _ xs ys le_rfl

theorem paddedCmp_nonneg_iff (hc : Comparison cmp) (xs ys : List α) :
    0 ≤ paddedCmp cmp d xs ys ↔ part d xs = part d ys ∨
      ∃ i, FirstDiff (part d xs) (part d ys) i ∧ cmp (part d xs i) (part d ys i) = 1 := by
  constructor
  · intro h
    rcases eq_or_firstDiff (part d xs) (part d ys) with he | ⟨i,hi⟩
    · exact Or.inl he
    · refine Or.inr ⟨i,hi,?_⟩
      rw [paddedCmp_of_firstDiff hc i xs ys hi] at h
      have hz := mt (hc.zero_iff _ _).mp hi.2
      have := hc.sign (part d xs i) (part d ys i)
      omega
  · rintro (he | ⟨i,hi,h1⟩)
    · exact ((paddedCmp_eq_zero_iff hc xs ys).mpr he).ge
    · rw [paddedCmp_of_firstDiff hc i xs ys hi,h1]
      decide

theorem paddedCmp_converse_iff (hc : Comparison cmp) (xs ys : List α) :
    (paddedCmp cmp d xs ys ≤ 0 ↔ 0 ≤ paddedCmp cmp d ys xs) ↔
      ∀ i, FirstDiff (part d xs) (part d ys) i →
        cmp (part d xs i) (part d ys i) ≠ cmp (part d ys i) (part d xs i) := by
  rcases eq_or_firstDiff (part d xs) (part d ys) with he | ⟨i,hi⟩
  · have h1 := (paddedCmp_eq_zero_iff hc xs ys).mpr he
    have h2 := (paddedCmp_eq_zero_iff hc ys xs).mpr he.symm
    have hno (i : ℕ) : ¬FirstDiff (part d xs) (part d ys) i := fun h => h.2 (congrFun he i)
    simp [h1,h2,hno]
  · have h1 := paddedCmp_of_firstDiff hc i xs ys hi
    have h2 := paddedCmp_of_firstDiff hc i ys xs hi.symm
    have hx := hc.sign (part d xs i) (part d ys i)
    have hy := hc.sign (part d ys i) (part d xs i)
    have hzx := mt (hc.zero_iff _ _).mp hi.2
    have hzy := mt (hc.zero_iff _ _).mp hi.2.symm
    rw [h1,h2]
    constructor
    · intro h j hj
      rw [← hi.unique hj]
      omega
    · intro h
      have := h i hi
      omega

def Agree3 (f g h : ℕ → α) (i : ℕ) : Prop := ∀ j < i, f j = g j ∧ g j = h j

theorem agree3_of_firstDiff {f g h : ℕ → α} {i : ℕ} (hfg : ∀ j < i, f j = g j)
    (hgh : ∀ j < i, g j = h j) : Agree3 f g h i := fun j hj => ⟨hfg j hj,hgh j hj⟩

theorem not_trans_iff (hc : Comparison cmp) (xs ys zs : List α) :
    (0 ≤ paddedCmp cmp d xs ys ∧ 0 ≤ paddedCmp cmp d ys zs ∧ paddedCmp cmp d xs zs < 0) ↔
      ∃ i, Agree3 (part d xs) (part d ys) (part d zs) i ∧
        cmp (part d xs i) (part d ys i) = 1 ∧ cmp (part d ys i) (part d zs i) = 1 ∧
        ∃ j, i ≤ j ∧ FirstDiff (part d xs) (part d zs) j ∧
          cmp (part d xs j) (part d zs j) ≠ 1 := by
  rw [paddedCmp_nonneg_iff hc,paddedCmp_nonneg_iff hc,← not_le,paddedCmp_nonneg_iff hc]
  constructor
  · rintro ⟨hxy,hyz,hxz⟩
    rw [not_or] at hxz
    obtain ⟨k,hk⟩ := (eq_or_firstDiff (part d xs) (part d zs)).resolve_left hxz.1
    have hk1 : cmp (part d xs k) (part d zs k) ≠ 1 := fun h => hxz.2 ⟨k,hk,h⟩
    rcases hxy with hxy | ⟨i,hi,hi1⟩
    · rcases hyz with hyz | ⟨j,hj,hj1⟩
      · exact absurd (hxy.trans hyz) hxz.1
      · rw [← hxy] at hj hj1
        rw [hk.unique hj] at hk1
        exact absurd hj1 hk1
    · rcases hyz with hyz | ⟨j,hj,hj1⟩
      · rw [hyz] at hi hi1
        rw [hk.unique hi] at hk1
        exact absurd hi1 hk1
      · rcases lt_trichotomy i j with h | h | h
        · have hd := hi.congr_right (fun l hl => hj.1 l (by omega))
          rw [hk.unique hd,← hj.1 i h] at hk1
          exact absurd hi1 hk1
        · subst h
          refine ⟨i,agree3_of_firstDiff hi.1 hj.1,hi1,hj1,k,?_,hk,hk1⟩
          by_contra hlt
          exact hk.2 ((hi.1 k (by omega)).trans (hj.1 k (by omega)))
        · have hd := hj.congr_left (fun l hl => hi.1 l (by omega))
          rw [hk.unique hd,hi.1 j h] at hk1
          exact absurd hj1 hk1
  · rintro ⟨i,hi,hxy,hyz,j,-,hj,hj1⟩
    have hne (x y : α) (h : cmp x y = 1) : x ≠ y := by
      intro he
      rw [(hc.zero_iff x y).mpr he] at h
      omega
    refine ⟨Or.inr ⟨i,⟨fun l hl => (hi l hl).1,hne _ _ hxy⟩,hxy⟩,
      Or.inr ⟨i,⟨fun l hl => (hi l hl).2,hne _ _ hyz⟩,hyz⟩,?_⟩
    rintro (he | ⟨k,hk,hk1⟩)
    · exact hj.2 (congrFun he j)
    · rw [hk.unique hj] at hk1
      exact hj1 hk1

theorem paddedCmp_converse (hc : Comparison cmp) (hsymm : ∀ x y, x ≠ y → cmp x y ≠ cmp y x)
    (xs ys : List α) : paddedCmp cmp d xs ys ≤ 0 ↔ 0 ≤ paddedCmp cmp d ys xs :=
  (paddedCmp_converse_iff hc xs ys).mpr (fun _ h => hsymm _ _ h.2)

theorem paddedCmp_trans (hc : Comparison cmp)
    (htrans : ∀ x y z, cmp x y = 1 → cmp y z = 1 → cmp x z = 1) {xs ys zs : List α}
    (hxy : 0 ≤ paddedCmp cmp d xs ys) (hyz : 0 ≤ paddedCmp cmp d ys zs) :
    0 ≤ paddedCmp cmp d xs zs := by
  by_contra h
  obtain ⟨i,hi,h1,h2,j,hij,hj,hj1⟩ := (not_trans_iff hc xs ys zs).mp ⟨hxy,hyz,not_le.mp h⟩
  have hxz := htrans _ _ _ h1 h2
  have hd : FirstDiff (part d xs) (part d zs) i := by
    refine ⟨fun l hl => (hi l hl).1.trans (hi l hl).2,fun he => ?_⟩
    rw [(hc.zero_iff _ _).mpr he] at hxz
    omega
  rw [hj.unique hd] at hj1
  exact hj1 hxz

end comparison

section lex
variable {β : Type} [LinearOrder β]

def signCmp (x y : β) : ℤ := if x = y then 0 else if x < y then -1 else 1

theorem comparison_signCmp : Comparison (signCmp (β := β)) where
  zero_iff x y := by
    rw [signCmp]
    split_ifs <;> simp_all
  sign x y := by
    rw [signCmp]
    split_ifs <;> simp

theorem signCmp_ne_swap (x y : β) (h : x ≠ y) : signCmp x y ≠ signCmp y x := by
  rcases lt_or_gt_of_ne h with hl | hl
  · simp [signCmp,h,h.symm,hl,hl.not_gt]
  · simp [signCmp,h,h.symm,hl,hl.not_gt]

theorem signCmp_eq_one_iff (x y : β) : signCmp x y = 1 ↔ y < x := by
  rw [signCmp]
  split_ifs with he hl
  · simp [he]
  · simpa using hl.le
  · simpa using lt_of_le_of_ne (not_lt.mp hl) (Ne.symm he)

theorem signCmp_nonneg_iff (x y : β) : 0 ≤ signCmp x y ↔ y ≤ x := by
  rw [signCmp]
  split_ifs with he hl
  · simp [he]
  · simpa using hl
  · simpa using not_lt.mp hl

theorem signCmp_nonpos_iff (x y : β) : signCmp x y ≤ 0 ↔ x ≤ y := by
  rw [signCmp]
  split_ifs with he hl
  · simp [he]
  · simpa using hl.le
  · simpa using lt_of_le_of_ne (not_lt.mp hl) (Ne.symm he)

theorem signCmp_cons (x y : β) (xs ys : List β) :
    signCmp (x :: xs) (y :: ys) = if signCmp x y ≠ 0 then signCmp x y else signCmp xs ys := by
  rcases lt_trichotomy x y with h | h | h
  · simp [signCmp,h,h.ne,List.cons_lt_cons_iff]
  · subst h
    simp only [signCmp,List.cons.injEq,true_and,List.cons_lt_cons_iff,lt_irrefl,false_or,ne_eq,
      not_true_eq_false,if_true,if_false]
    congr
  · simp [signCmp,h.not_gt,h.ne',List.cons_lt_cons_iff]

theorem signCmp_toLex {γ : Type} [LinearOrder γ] (a c : β) (b d : γ) :
    signCmp (toLex (a,b)) (toLex (c,d)) = if a = c then signCmp b d else signCmp a c := by
  split_ifs with h
  · simp [signCmp,h,Prod.Lex.toLex_lt_toLex]
  · simp [signCmp,h,Prod.Lex.toLex_lt_toLex]

theorem paddedCmp_eq_signCmp {cmp : α → α → ℤ} {d : α} (f : α → β) (xs ys : List α)
    (hcmp : ∀ x ∈ xs, ∀ y ∈ ys, cmp x y = signCmp (f x) (f y))
    (hpad : xs.length = ys.length ∨ (∀ y ∈ ys, cmp d y = -1) ∧ ∀ x ∈ xs, cmp x d = 1) :
    paddedCmp cmp d xs ys = signCmp (xs.map f) (ys.map f) := by
  induction xs generalizing ys with
  | nil =>
    cases ys with
    | nil => simp [paddedCmp,padLeft,signCmp]
    | cons y ys =>
      have hy : cmp d y = -1 := (hpad.resolve_left (by simp)).1 y (by simp)
      simp [paddedCmp,padLeft,hy,signCmp]
  | cons x xs ih =>
    cases ys with
    | nil =>
      have hx : cmp x d = 1 := (hpad.resolve_left (by simp)).2 x (by simp)
      simp [paddedCmp,hx,signCmp]
    | cons y ys =>
      have hpad' : xs.length = ys.length ∨ (∀ y ∈ ys, cmp d y = -1) ∧ ∀ x ∈ xs, cmp x d = 1 :=
        hpad.imp (by simp) (fun h => ⟨fun z hz => h.1 z (by simp [hz]),fun z hz => h.2 z (by simp [hz])⟩)
      rw [paddedCmp,List.headD_cons,List.tail_cons,List.map_cons,List.map_cons,signCmp_cons,
        hcmp x (by simp) y (by simp),
        ih ys (fun a ha b hb => hcmp a (by simp [ha]) b (by simp [hb])) hpad']

theorem paddedCmp_same_length {xs ys : List β} {d : β} (h : xs.length = ys.length) :
    paddedCmp signCmp d xs ys = signCmp xs ys := by
  have := @paddedCmp_eq_signCmp β β _ signCmp d id xs ys (fun _ _ _ _ => rfl) (Or.inl h)
  simpa using this

end lex
end PaddedLex
