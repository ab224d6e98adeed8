import KvmInfo.GoVersion.Version
import KvmInfo.Library.PaddedLex

namespace GoVersion
open Go PaddedLex

def prereleaseCmp (v other : Str) : ℤ :=
  paddedCmp comparePart [] (split v dot) (split other dot)

def jaggedCmp : List ℤ → List ℤ → ℤ
  | [], ys => if allZero ys then 0 else -1
  | x :: xs, [] => if allZero (x :: xs) then 0 else 1
  | x :: xs, y :: ys => if x = y then jaggedCmp xs ys else if x < y then -1 else 1

def releaseCmp (p q : Str) : ℤ :=
  if p = [] ∧ q = [] then 0 else if p = [] then 1 else if q = [] then -1 else prereleaseCmp p q

def baseCmp (v other : Version) : ℤ := paddedCmp signCmp 0 v.segments other.segments

def order (v other : Version) : ℤ :=
  if v.segments = other.segments then releaseCmp v.pre other.pre else baseCmp v other

theorem comparePart_ne_zero {x y : Str} (h : x ≠ y) : comparePart x y = -1 ∨ comparePart x y = 1 := by
  rw [comparePart,if_neg h]
  dsimp only
  split_ifs <;> simp

theorem comparePart_self (x : Str) : comparePart x x = 0 := by simp [comparePart]

theorem comparison_comparePart : Comparison comparePart where
  zero_iff x y := by
    constructor
    · intro h
      by_contra hne
      have := comparePart_ne_zero hne
      omega
    · rintro rfl
      exact comparePart_self x
  sign x y := by
    by_cases h : x = y
    · exact Or.inr (Or.inl (h ▸ comparePart_self x))
    · have := comparePart_ne_zero h
      omega

theorem partAt_eq (xs : List Str) (i : ℕ) : partAt xs i = .ok (part [] xs i) := by
  unfold partAt
  split_ifs with h
  · rw [index_ok xs i h]
    simp [part,h]
  · simp [part,Nat.not_lt.mp h]

theorem part_drop {α : Type} (d : α) (xs : List α) (i : ℕ) : part d (xs.drop i) 0 = part d xs i := by
  simp [part]

theorem comparePartsFrom_eq (self other : List Str) (n i : ℕ)
    (hs : self.length ≤ n + i) (ho : other.length ≤ n + i) :
    comparePartsFrom self other n i =
      .ok (paddedCmp comparePart [] (self.drop i) (other.drop i)) := by
  induction n generalizing i with
  | zero =>
    rw [List.drop_eq_nil_of_le (by omega),List.drop_eq_nil_of_le (by omega)]
    rfl
  | succ n ih =>
    rw [comparePartsFrom,partAt_eq,partAt_eq]
    simp only [bind,Except.bind]
    by_cases h : part [] self i = part [] other i
    · rw [if_neg (not_not.mpr ((comparison_comparePart.zero_iff _ _).mpr h)),
        ih (i + 1) (by omega) (by omega),
        paddedCmp_step_eq comparison_comparePart (self.drop i) (other.drop i) (by simpa [part_drop] using h)]
      simp
    · rw [if_pos (mt (comparison_comparePart.zero_iff _ _).mp h),
        paddedCmp_step_ne comparison_comparePart (self.drop i) (other.drop i) (by simpa [part_drop] using h)]
      simp [part_drop,pure,Except.pure]

theorem comparePrereleases_eq (v other : Str) :
    comparePrereleases v other = .ok (prereleaseCmp v other) := by
  unfold comparePrereleases prereleaseCmp
  split_ifs with h
  · rw [h,(paddedCmp_eq_zero_iff comparison_comparePart _ _).mpr rfl]
  · dsimp only
    exact comparePartsFrom_eq _ _ _ 0 (by split_ifs <;> omega) (by split_ifs <;> omega)

theorem compareSegmentsFrom_eq (self other : List ℤ) (n i : ℕ)
    (hn : n + i = max self.length other.length) :
    compareSegmentsFrom self other n i = .ok (jaggedCmp (self.drop i) (other.drop i)) := by
  induction n generalizing i with
  | zero =>
    rw [List.drop_eq_nil_of_le (by omega),List.drop_eq_nil_of_le (by omega)]
    rfl
  | succ n ih =>
    rw [compareSegmentsFrom]
    split_ifs with h1 h2
    · rw [sliceFrom_ok other i (by omega),List.drop_eq_nil_of_le (by omega : self.length ≤ i)]
      simp only [bind,Except.bind,jaggedCmp]
      cases allZero (other.drop i) <;> rfl
    · rw [sliceFrom_ok self i (by omega),List.drop_eq_nil_of_le (by omega : other.length ≤ i),
        List.drop_eq_getElem_cons (by omega : i < self.length)]
      simp only [bind,Except.bind,jaggedCmp]
      cases allZero (self[i] :: self.drop (i + 1)) <;> rfl
    · rw [index_ok self i (by omega),index_ok other i (by omega),
        List.drop_eq_getElem_cons (by omega : i < self.length),
        List.drop_eq_getElem_cons (by omega : i < other.length)]
      simp only [bind,Except.bind,jaggedCmp]
      split_ifs with he hl
      · exact ih (i + 1) (by omega)
      · rfl
      · rfl

theorem padLeft_signCmp (ys : List ℤ) (hy : ∀ y ∈ ys, 0 ≤ y) :
    padLeft signCmp 0 ys = if allZero ys then 0 else -1 := by
  induction ys with
  | nil => rfl
  | cons y ys ih =>
    simp only [List.mem_cons,forall_eq_or_imp] at hy
    rw [padLeft,allZero,ih hy.2]
    by_cases h : y = 0
    · simp [h,signCmp]
    · have hlt : 0 < y := by omega
      simp [h,signCmp,Ne.symm h,hlt]

theorem jaggedCmp_eq (xs ys : List ℤ) (hx : ∀ x ∈ xs, 0 ≤ x) (hy : ∀ y ∈ ys, 0 ≤ y) :
    jaggedCmp xs ys = paddedCmp signCmp 0 xs ys := by
  induction xs generalizing ys with
  | nil => exact (padLeft_signCmp ys hy).symm
  | cons x xs ih =>
    simp only [List.mem_cons,forall_eq_or_imp] at hx
    cases ys with
    | nil =>
      have hnil := ih [] hx.2 (by simp)
      rw [jaggedCmp,paddedCmp,allZero,List.headD_nil,List.tail_nil,← hnil]
      by_cases h : x = 0
      · cases xs <;> simp [h,signCmp,jaggedCmp,allZero]
      · have hn : ¬x < 0 := by omega
        simp [h,signCmp,hn]
    | cons y ys =>
      simp only [List.mem_cons,forall_eq_or_imp] at hy
      rw [jaggedCmp,paddedCmp,List.headD_cons,List.tail_cons,ih ys hx.2 hy.2]
      by_cases h : x = y
      · simp [h,signCmp]
      · by_cases hl : x < y <;> simp [h,hl,signCmp]

theorem compare_ok (v other : Version) : ∃ c, v.compare other = .ok c := by
  unfold Version.compare
  split_ifs
  · exact ⟨_,rfl⟩
  · exact ⟨_,rfl⟩
  · exact ⟨_,rfl⟩
  · exact ⟨_,rfl⟩
  · exact ⟨_,comparePrereleases_eq _ _⟩
  · exact ⟨_,compareSegmentsFrom_eq _ _ _ 0 (by omega)⟩
  · exact ⟨_,compareSegmentsFrom_eq _ _ _ 0 (by omega)⟩

structure Version.Plain (v : Version) : Prop where
  metadata : v.metadata = []
  nonneg : ∀ s ∈ v.segments, 0 ≤ s
  nonempty : v.segments ≠ []

theorem join_decimal (xs : List Str) (hx : ∀ x ∈ xs, ∀ b ∈ x, isDecimal b = true) :
    ∀ b ∈ join xs dot, isDecimal b = true ∨ b = dot := by
  intro b hb
  induction xs with
  | nil => simp [join] at hb
  | cons x xs ih =>
    simp only [List.mem_cons,forall_eq_or_imp] at hx
    cases xs with
    | nil =>
      have hbx : b ∈ x := by simpa [join] using hb
      exact Or.inl (hx.1 b hbx)
    | cons y ys =>
      rw [join,List.intercalate_cons_cons] at hb
      rcases List.mem_append.mp hb with h | h
      · rcases List.mem_append.mp h with h | h
        · exact Or.inl (hx.1 b h)
        · exact Or.inr (by simpa using h)
      · exact ih hx.2 h

theorem segments_decimal {v : Version} (hv : v.Plain) :
    ∀ x ∈ v.segments.map formatInt, ∀ b ∈ x, isDecimal b = true := by
  intro x hx
  obtain ⟨s,hs,rfl⟩ := List.mem_map.mp hx
  have h0 := hv.nonneg s hs
  lift s to ℕ using h0
  exact formatInt_decimal s

theorem dash_notMem_segments {v : Version} (hv : v.Plain) :
    ∀ b ∈ join (v.segments.map formatInt) dot, b ≠ dash := by
  rintro b hb rfl
  have := join_decimal _ (segments_decimal hv) dash hb
  simp [isDecimal,dash,dot] at this

theorem join_injective {xs ys : List Str} {sep : UInt8} (hx : ∀ x ∈ xs, sep ∉ x)
    (hy : ∀ y ∈ ys, sep ∉ y) (hxn : xs ≠ []) (hyn : ys ≠ []) (h : join xs sep = join ys sep) :
    xs = ys := by
  have := congrArg (List.splitOn sep) h
  rwa [join,join,List.splitOn_intercalate sep hx hxn,List.splitOn_intercalate sep hy hyn] at this

theorem append_tail_inj {xs ys us vs : Str} (hx : ∀ b ∈ xs, b ≠ dash) (hy : ∀ b ∈ ys, b ≠ dash)
    (hu : us = [] ∨ us.head? = some dash) (hv : vs = [] ∨ vs.head? = some dash)
    (h : xs ++ us = ys ++ vs) : xs = ys ∧ us = vs := by
  have hcut (as bs : Str) (ha : ∀ b ∈ as, b ≠ dash) (hb : bs = [] ∨ bs.head? = some dash) :
      (as ++ bs).takeWhile (· ≠ dash) = as := by
    rw [List.takeWhile_append_of_pos (by simpa using ha)]
    rcases hb with rfl | hb
    · simp
    · cases bs with
      | nil => simp
      | cons b bs =>
        have : b = dash := by simpa using hb
        simp [this]
  have hxy : xs = ys := by rw [← hcut xs us hx hu,h,hcut ys vs hy hv]
  subst hxy
  exact ⟨rfl,List.append_cancel_left h⟩

theorem string_plain {v : Version} (hv : v.Plain) :
    v.string = join (v.segments.map formatInt) dot ++ (if v.pre ≠ [] then dash :: v.pre else []) := by
  simp [Version.string,hv.metadata]

theorem string_injective {v other : Version} (hv : v.Plain) (ho : other.Plain)
    (h : v.string = other.string) : v.segments = other.segments ∧ v.pre = other.pre := by
  have htail (p : Str) : (if p ≠ [] then dash :: p else []) = [] ∨
      (if p ≠ [] then dash :: p else []).head? = some dash := by
    by_cases hp : p = []
    · exact Or.inl (by simp [hp])
    · exact Or.inr (by simp [hp])
  rw [string_plain hv,string_plain ho] at h
  obtain ⟨hseg,hpre⟩ := append_tail_inj (dash_notMem_segments hv) (dash_notMem_segments ho)
    (htail v.pre) (htail other.pre) h
  have hdot {w : Version} (hw : w.Plain) : ∀ x ∈ w.segments.map formatInt, dot ∉ x := by
    intro x hx hd
    have := segments_decimal hw x hx dot hd
    exact absurd this (by decide)
  have hmap := join_injective (hdot hv) (hdot ho) (by simpa using hv.nonempty)
    (by simpa using ho.nonempty) hseg
  constructor
  · exact List.map_injective_iff.mpr formatInt_injective hmap
  · by_cases hp : v.pre = [] <;> by_cases hq : other.pre = [] <;> simp_all

theorem compare_eq_order {v other : Version} (hv : ∀ s ∈ v.segments, 0 ≤ s)
    (ho : ∀ s ∈ other.segments, 0 ≤ s)
    (hsame : v.string = other.string → v.segments = other.segments ∧ v.pre = other.pre) :
    v.compare other = .ok (order v other) := by
  have hself (p : Str) : releaseCmp p p = 0 := by
    rw [releaseCmp,prereleaseCmp,(paddedCmp_eq_zero_iff comparison_comparePart _ _).mpr rfl]
    by_cases hp : p = [] <;> simp [hp]
  rw [Version.compare]
  split_ifs with hs hseg hpp hp ho'
  · obtain ⟨hseg,hpre⟩ := hsame hs
    rw [order,if_pos hseg,hpre,hself]
  · rw [order,if_pos hseg,releaseCmp,if_pos hpp]
  · rw [order,if_pos hseg,releaseCmp,if_neg hpp,if_pos hp]
  · rw [order,if_pos hseg,releaseCmp,if_neg hpp,if_neg hp,if_pos ho']
  · rw [order,if_pos hseg,releaseCmp,if_neg hpp,if_neg hp,if_neg ho',comparePrereleases_eq]
  all_goals
    rw [order,if_neg hseg,baseCmp,← jaggedCmp_eq _ _ hv ho]
    exact compareSegmentsFrom_eq _ _ _ 0 (by omega)

theorem compare_eq {v other : Version} (hv : v.Plain) (ho : other.Plain) :
    v.compare other = .ok (order v other) :=
  compare_eq_order hv.nonneg ho.nonneg (string_injective hv ho)

end GoVersion
