import KvmInfo.GoVersion.Order

namespace GoVersion
open Go PaddedLex

theorem str_asymm {x y : Str} (h : x < y) : ¬y < x := List.lt_asymm h

theorem str_trichotomy {x y : Str} (hne : x ≠ y) : x < y ∨ y < x := by
  by_contra h
  rw [not_or] at h
  exact hne (List.le_antisymm (List.not_lt.mp h.2) (List.not_lt.mp h.1))

def intValue (x : Str) : ℤ := (parseInt x).1

inductive Kind where
  | missing
  | numeral
  | text
  deriving DecidableEq, Repr

def kind (x : Str) : Kind :=
  if x = [] then .missing else if (parseInt x).2 = none then .numeral else .text

-- Text outranks a numeral, a numeral a missing part, and a missing part text.
def Beats (x y : Str) : Prop :=
  match kind x,kind y with
  | .missing,.text => True
  | .numeral,.missing => True
  | .text,.numeral => True
  | .numeral,.numeral => intValue y < intValue x
  | .text,.text => y < x ∨ intValue y < intValue x
  | _,_ => False

def Tied (x y : Str) : Prop :=
  match kind x,kind y with
  | .numeral,.numeral => intValue x = intValue y
  | .text,.text => (x < y ∧ intValue y < intValue x) ∨ (y < x ∧ intValue x < intValue y)
  | _,_ => False

def Cycle (x y z : Str) : Prop :=
  match kind x,kind y,kind z with
  | .missing,.text,.numeral => True
  | .numeral,.missing,.text => True
  | .text,.numeral,.missing => True
  | .text,.text,.text => Beats x y ∧ Beats y z ∧ ¬Beats x z
  | _,_,_ => False

theorem kind_missing {x : Str} (h : kind x = .missing) : x = [] := by
  rw [kind] at h
  split_ifs at h
  assumption

theorem kind_numeral {x : Str} (h : kind x = .numeral) : x ≠ [] ∧ (parseInt x).2 = none := by
  rw [kind] at h
  split_ifs at h with h1 h2
  exact ⟨h1,h2⟩

theorem kind_text {x : Str} (h : kind x = .text) : x ≠ [] ∧ (parseInt x).2 ≠ none := by
  rw [kind] at h
  split_ifs at h with h1 h2
  exact ⟨h1,h2⟩

theorem comparePart_kinds {x y : Str} (hne : x ≠ y) :
    comparePart x y =
      match kind x,kind y with
      | .missing,.missing => 0
      | .missing,.numeral => -1
      | .missing,.text => 1
      | .numeral,.missing => 1
      | .text,.missing => -1
      | .numeral,.text => -1
      | .text,.numeral => 1
      | .numeral,.numeral => if intValue x > intValue y then 1 else -1
      | .text,.text => if y < x then 1 else if intValue x > intValue y then 1 else -1 := by
  rw [comparePart,if_neg hne]
  cases hx : kind x with
  | missing =>
    have hx := kind_missing hx
    cases hy : kind y with
    | missing => exact absurd (hx.trans (kind_missing hy).symm) hne
    | numeral => simp [hx,(kind_numeral hy).2]
    | text => simp [hx,(kind_text hy).2]
  | numeral =>
    obtain ⟨hx0,hx⟩ := kind_numeral hx
    cases hy : kind y with
    | missing => simp [kind_missing hy,hx0,hx]
    | numeral => simp [hx0,hx,kind_numeral hy,intValue]
    | text => simp [hx0,hx,kind_text hy]
  | text =>
    obtain ⟨hx0,hx⟩ := kind_text hx
    cases hy : kind y with
    | missing => simp [kind_missing hy,hx0,hx]
    | numeral => simp [hx0,hx,kind_numeral hy]
    | text => simp [hx0,hx,kind_text hy,intValue]

theorem beats_irrefl (x : Str) : ¬Beats x x := by
  rw [Beats]
  cases kind x with
  | missing => exact id
  | numeral => exact lt_irrefl _
  | text => exact fun h => h.elim (fun h => str_asymm h h) (lt_irrefl _)

theorem comparePart_eq_one_iff (x y : Str) : comparePart x y = 1 ↔ Beats x y := by
  by_cases hne : x = y
  · subst hne
    simp [comparePart_self,beats_irrefl]
  · rw [comparePart_kinds hne,Beats]
    cases kind x <;> cases kind y <;> simp
    tauto

theorem comparePart_tied_iff {x y : Str} (hne : x ≠ y) :
    comparePart x y = comparePart y x ↔ Tied x y := by
  rw [comparePart_kinds hne,comparePart_kinds (Ne.symm hne),Tied]
  have hxy := str_trichotomy hne
  have hx := @str_asymm x y
  have hy := @str_asymm y x
  cases hkx : kind x <;> cases hky : kind y
  case missing.missing => exact absurd ((kind_missing hkx).trans (kind_missing hky).symm) hne
  case numeral.numeral =>
    dsimp only
    split_ifs <;> constructor <;> intro h <;> first | contradiction | omega
  case text.text =>
    dsimp only
    split_ifs <;> constructor <;> intro h <;> first | contradiction | omega | tauto
  all_goals simp

theorem cycle_iff (x y z : Str) : Cycle x y z ↔ Beats x y ∧ Beats y z ∧ ¬Beats x z := by
  rw [Cycle]
  split
  · next h1 h2 h3 => simp [Beats,h1,h2,h3]
  · next h1 h2 h3 => simp [Beats,h1,h2,h3]
  · next h1 h2 h3 => simp [Beats,h1,h2,h3]
  · exact Iff.rfl
  · next h1 h2 h3 h4 =>
    rw [false_iff]
    rintro ⟨hxy,hyz,hxz⟩
    rw [Beats] at hxy hyz hxz
    cases hx : kind x <;> cases hy : kind y <;> cases hz : kind z <;> simp_all
    omega

def parts (p : Str) : ℕ → Str := part [] (split p dot)

def ReleaseBelow (p q : Str) : Prop :=
  p ≠ [] ∧ (q = [] ∨ ∃ i, FirstDiff (parts p) (parts q) i ∧ ¬Beats (parts p i) (parts q i))

theorem releaseCmp_neg_iff (p q : Str) : releaseCmp p q < 0 ↔ ReleaseBelow p q := by
  rw [releaseCmp,ReleaseBelow]
  split_ifs with h1 hp hq
  · simp [h1.1]
  · simp [hp]
  · simp [hp,hq]
  · simp only [hp,hq,ne_eq,not_false_eq_true,true_and,false_or]
    rcases eq_or_firstDiff (parts p) (parts q) with he | ⟨i,hi⟩
    · have hz := (paddedCmp_eq_zero_iff comparison_comparePart _ _).mpr he
      have hno (i : ℕ) : ¬FirstDiff (parts p) (parts q) i := fun h => h.2 (congrFun he i)
      simp [prereleaseCmp,hz,hno]
    · have hc := paddedCmp_of_firstDiff comparison_comparePart i _ _ hi
      change prereleaseCmp p q = comparePart (parts p i) (parts q i) at hc
      have hne := comparePart_ne_zero hi.2
      rw [hc]
      constructor
      · intro h
        refine ⟨i,hi,fun hb => ?_⟩
        rw [(comparePart_eq_one_iff _ _).mpr hb] at h
        omega
      · rintro ⟨j,hj,hb⟩
        rw [hj.unique hi] at hb
        have := mt (comparePart_eq_one_iff _ _).mp hb
        omega

theorem releaseCmp_of_ne {p q : Str} (hp : p ≠ []) (hq : q ≠ []) :
    releaseCmp p q = prereleaseCmp p q := by
  simp [releaseCmp,hp,hq]

def TiedReleases (v other : Version) : Prop :=
  v.segments = other.segments ∧ v.pre ≠ [] ∧ other.pre ≠ [] ∧
    ∃ i, FirstDiff (parts v.pre) (parts other.pre) i ∧ Tied (parts v.pre i) (parts other.pre i)

theorem prereleaseCmp_converse_iff (p q : Str) :
    (prereleaseCmp p q ≤ 0 ↔ 0 ≤ prereleaseCmp q p) ↔
      ¬∃ i, FirstDiff (parts p) (parts q) i ∧ Tied (parts p i) (parts q i) := by
  rw [prereleaseCmp,prereleaseCmp,paddedCmp_converse_iff comparison_comparePart]
  constructor
  · rintro h ⟨i,hi,ht⟩
    exact h i hi ((comparePart_tied_iff hi.2).mpr ht)
  · intro h i hi he
    exact h ⟨i,hi,(comparePart_tied_iff hi.2).mp he⟩

theorem order_converse_iff (v other : Version) :
    (order v other ≤ 0 ↔ 0 ≤ order other v) ↔ ¬TiedReleases v other := by
  by_cases hseg : v.segments = other.segments
  · rw [order,order,if_pos hseg,if_pos hseg.symm]
    by_cases hp : v.pre = []
    · have hno : ¬TiedReleases v other := fun h => h.2.1 hp
      by_cases hq : other.pre = [] <;> simp [releaseCmp,hp,hq,hno]
    · by_cases hq : other.pre = []
      · have hno : ¬TiedReleases v other := fun h => h.2.2.1 hq
        simp [releaseCmp,hp,hq,hno]
      · rw [releaseCmp_of_ne hp hq,releaseCmp_of_ne hq hp,prereleaseCmp_converse_iff]
        simp [TiedReleases,hseg,hp,hq]
  · have hno : ¬TiedReleases v other := fun h => hseg h.1
    rw [order,order,if_neg hseg,if_neg (Ne.symm hseg)]
    exact iff_of_true (paddedCmp_converse comparison_signCmp signCmp_ne_swap _ _) hno

def Intransitive (a b c : Version) : Prop :=
  c.segments = a.segments ∧ part 0 b.segments = part 0 a.segments ∧ ReleaseBelow c.pre a.pre ∧
    (b.segments ≠ a.segments ∨ a.pre ≠ [] ∧ b.pre ≠ [] ∧
      ∃ i, Agree3 (parts c.pre) (parts b.pre) (parts a.pre) i ∧
        Cycle (parts c.pre i) (parts b.pre i) (parts a.pre i))

theorem baseCmp_of_eq {v other : Version} (h : part 0 v.segments = part 0 other.segments) :
    baseCmp v other = 0 :=
  (paddedCmp_eq_zero_iff comparison_signCmp _ _).mpr h

theorem baseCmp_nonneg {v other : Version} (h : 0 ≤ order v other) : 0 ≤ baseCmp v other := by
  by_cases hseg : v.segments = other.segments
  · rw [baseCmp_of_eq (by rw [hseg])]
  · rwa [order,if_neg hseg] at h

theorem baseCmp_trans {x y z : Version} (hxy : 0 ≤ baseCmp x y) (hyz : 0 ≤ baseCmp y z) :
    0 ≤ baseCmp x z := by
  apply paddedCmp_trans comparison_signCmp _ hxy hyz
  intro x y z
  simp only [signCmp_eq_one_iff]
  intro hxy hyz
  exact hyz.trans hxy

theorem releases_not_trans_iff {p q r : Str} (hp : p ≠ []) (hq : q ≠ []) (hr : r ≠ []) :
    (0 ≤ releaseCmp p q ∧ 0 ≤ releaseCmp q r ∧ releaseCmp p r < 0) ↔
      ReleaseBelow p r ∧ ∃ i, Agree3 (parts p) (parts q) (parts r) i ∧
        Cycle (parts p i) (parts q i) (parts r i) := by
  have hbelow := releaseCmp_neg_iff p r
  rw [releaseCmp_of_ne hp hq,releaseCmp_of_ne hq hr]
  constructor
  · rintro ⟨hpq,hqr,hpr⟩
    refine ⟨hbelow.mp hpr,?_⟩
    rw [releaseCmp_of_ne hp hr] at hpr
    obtain ⟨i,hi,h1,h2,j,-,hj,hj1⟩ :=
      (not_trans_iff comparison_comparePart _ _ _).mp ⟨hpq,hqr,hpr⟩
    refine ⟨i,hi,(cycle_iff _ _ _).mpr ⟨(comparePart_eq_one_iff _ _).mp h1,
      (comparePart_eq_one_iff _ _).mp h2,fun hb => ?_⟩⟩
    have hd : FirstDiff (parts p) (parts r) i := by
      refine ⟨fun l hl => (hi l hl).1.trans (hi l hl).2,fun he => ?_⟩
      rw [parts,parts] at he
      rw [parts,parts,he] at hb
      exact beats_irrefl _ hb
    rw [hj.unique hd] at hj1
    exact hj1 ((comparePart_eq_one_iff _ _).mpr hb)
  · rintro ⟨hpr,i,hi,hcycle⟩
    obtain ⟨h1,h2,h3⟩ := (cycle_iff _ _ _).mp hcycle
    have hneg := hbelow.mpr hpr
    obtain ⟨j,hj,hb⟩ := hpr.2.resolve_left hr
    have hij : i ≤ j := by
      by_contra hlt
      have := hi j (not_le.mp hlt)
      exact hj.2 (this.1.trans this.2)
    obtain ⟨hpq,hqr,-⟩ := (not_trans_iff comparison_comparePart _ _ _).mpr
      ⟨i,hi,(comparePart_eq_one_iff _ _).mpr h1,(comparePart_eq_one_iff _ _).mpr h2,j,hij,hj,
        mt (comparePart_eq_one_iff _ _).mp hb⟩
    exact ⟨hpq,hqr,hneg⟩

theorem releaseCmp_ne_nil {p q : Str} (hp : p ≠ []) (h : 0 ≤ releaseCmp p q) : q ≠ [] := by
  rintro rfl
  simp [releaseCmp,hp] at h

theorem order_not_trans_iff (a b c : Version) :
    (0 ≤ order c b ∧ 0 ≤ order b a ∧ order c a < 0) ↔ Intransitive a b c := by
  constructor
  · rintro ⟨hcb,hba,hca⟩
    have hbase := baseCmp_trans (baseCmp_nonneg hcb) (baseCmp_nonneg hba)
    have hseg : c.segments = a.segments := by
      by_contra hne
      rw [order,if_neg hne] at hca
      omega
    have hsame : part 0 b.segments = part 0 a.segments := by
      apply (paddedCmp_eq_zero_iff comparison_signCmp _ _).mp
      have hle := (paddedCmp_converse (d := (0 : ℤ)) comparison_signCmp signCmp_ne_swap b.segments
        c.segments).mpr (baseCmp_nonneg hcb)
      rw [hseg] at hle
      exact le_antisymm hle (baseCmp_nonneg hba)
    rw [order,if_pos hseg] at hca
    have hbelow := (releaseCmp_neg_iff _ _).mp hca
    refine ⟨hseg,hsame,hbelow,?_⟩
    by_cases hb : b.segments = a.segments
    · right
      rw [order,if_pos (hseg.trans hb.symm)] at hcb
      rw [order,if_pos hb] at hba
      have hbn := releaseCmp_ne_nil hbelow.1 hcb
      have han := releaseCmp_ne_nil hbn hba
      exact ⟨han,hbn,((releases_not_trans_iff hbelow.1 hbn han).mp ⟨hcb,hba,hca⟩).2⟩
    · exact Or.inl hb
  · rintro ⟨hseg,hsame,hbelow,h⟩
    have hca : order c a < 0 := by
      rw [order,if_pos hseg]
      exact (releaseCmp_neg_iff _ _).mpr hbelow
    by_cases hb : b.segments = a.segments
    · obtain ⟨han,hbn,hcycle⟩ := h.resolve_left (not_not.mpr hb)
      obtain ⟨hcb,hba,-⟩ := (releases_not_trans_iff hbelow.1 hbn han).mpr ⟨hbelow,hcycle⟩
      refine ⟨?_,?_,hca⟩
      · rwa [order,if_pos (hseg.trans hb.symm)]
      · rwa [order,if_pos hb]
    · refine ⟨?_,?_,hca⟩
      · rw [order,if_neg (fun he => hb (he.symm.trans hseg)),baseCmp_of_eq (by rw [hsame,hseg])]
      · rw [order,if_neg hb,baseCmp_of_eq hsame]

end GoVersion
