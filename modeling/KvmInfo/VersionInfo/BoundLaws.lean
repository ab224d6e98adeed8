import KvmInfo.GoVersion.Parts
import KvmInfo.VersionInfo.Check

namespace VersionInfo
open Go GoVersion PaddedLex

def minCheck (os bound : Str) : Check := ⟨os,[],bound,[]⟩
def maxCheck (os bound : Str) : Check := ⟨os,[],[],bound⟩

section bounds
variable {a b c : Str} {va vb vc : Version}

theorem accepted_ne_nil (h : readBound a = .ok (.ok va)) : a ≠ [] := by
  rintro rfl
  have herr : readBound [] = .ok (.error (str "Malformed version: ")) := by decide
  simp [herr] at h

theorem boundHolds_accepted {fails : ℤ → Bool} (hb : readBound b = .ok (.ok vb)) (hv : va.Plain) :
    BoundHolds fails b va ↔ fails (order va vb) = false := by
  simp [BoundHolds,accepted_ne_nil hb,hb,compare_eq hv (readBound_plain hb)]

theorem minCheck_satisfied (os : Str) (hb : readBound b = .ok (.ok vb)) (hv : va.Plain) :
    (minCheck os b).isSatisfied os va = .ok (true,none) ↔ 0 ≤ order va vb := by
  rw [isSatisfied_true_iff,Check.Holds]
  change os = os ∧ BoundHolds _ b va ∧ BoundHolds _ [] va ↔ _
  rw [boundHolds_accepted hb hv]
  simp [BoundHolds]

theorem maxCheck_satisfied (os : Str) (hb : readBound b = .ok (.ok vb)) (hv : va.Plain) :
    (maxCheck os b).isSatisfied os va = .ok (true,none) ↔ order va vb ≤ 0 := by
  rw [isSatisfied_true_iff,Check.Holds]
  change os = os ∧ BoundHolds _ [] va ∧ BoundHolds _ b va ↔ _
  rw [boundHolds_accepted hb hv]
  simp [BoundHolds]

theorem min_trans_iff (os : Str) (ha : readBound a = .ok (.ok va)) (hb : readBound b = .ok (.ok vb))
    (hc : readBound c = .ok (.ok vc)) :
    ((minCheck os a).isSatisfied os vb = .ok (true,none) →
      (minCheck os b).isSatisfied os vc = .ok (true,none) →
      (minCheck os a).isSatisfied os vc = .ok (true,none)) ↔ ¬Intransitive va vb vc := by
  rw [minCheck_satisfied os ha (readBound_plain hb),minCheck_satisfied os hb (readBound_plain hc),
    minCheck_satisfied os ha (readBound_plain hc),← order_not_trans_iff,← not_le]
  tauto

theorem min_max_converse_iff (os : Str) (ha : readBound a = .ok (.ok va))
    (hb : readBound b = .ok (.ok vb)) :
    ((maxCheck os b).isSatisfied os va = .ok (true,none) ↔
      (minCheck os a).isSatisfied os vb = .ok (true,none)) ↔ ¬TiedReleases va vb := by
  rw [maxCheck_satisfied os hb (readBound_plain ha),minCheck_satisfied os ha (readBound_plain hb)]
  exact order_converse_iff va vb

end bounds

def release9 : Version := ⟨[],str "9",[1,2,3],3,str "1.2.3-9"⟩
def fourSegments : Version := ⟨[],[],[1,2,3,0],4,str "1.2.3.0"⟩
def release5 : Version := ⟨[],str "5",[1,2,3],3,str "1.2.3-5"⟩
def release12 : Version := ⟨[],str "12",[1,2,3],3,str "1.2.3-12"⟩
def release05 : Version := ⟨[],str "05",[1,2,3],3,str "1.2.3-05"⟩

theorem read_release9 : readBound (str "1.2.3-9") = .ok (.ok release9) := by decide
theorem read_fourSegments : readBound (str "1.2.3.0") = .ok (.ok fourSegments) := by decide
theorem read_release5 : readBound (str "1.2.3-5") = .ok (.ok release5) := by decide
theorem read_release12 : readBound (str "1.2.3-12") = .ok (.ok release12) := by decide
theorem read_release05 : readBound (str "1.2.3-05") = .ok (.ok release05) := by decide

theorem min_trans_sample :
    ¬Intransitive release5 release9 release12 ∧ Intransitive release9 fourSegments release5 := by
  constructor
  · exact (min_trans_iff [] read_release5 read_release9 read_release12).mp fun _ _ => by decide
  · by_contra hno
    have htrans := (min_trans_iff [] read_release9 read_fourSegments read_release5).mpr hno
    exact absurd (htrans (by decide) (by decide)) (by decide)

theorem min_not_trans :
    ¬∀ (os a b c : Str) (va vb vc : Version), readBound a = .ok (.ok va) →
      readBound b = .ok (.ok vb) → readBound c = .ok (.ok vc) →
      (minCheck os a).isSatisfied os vb = .ok (true,none) →
      (minCheck os b).isSatisfied os vc = .ok (true,none) →
      (minCheck os a).isSatisfied os vc = .ok (true,none) := by
  intro h
  have hac := h [] _ _ _ _ _ _ read_release9 read_fourSegments read_release5 (by decide) (by decide)
  exact absurd hac (by decide)

theorem min_max_converse_sample :
    ¬TiedReleases release5 release9 ∧ TiedReleases release05 release5 := by
  constructor
  · exact (min_max_converse_iff [] read_release5 read_release9).mp
      (iff_of_true (by decide) (by decide))
  · by_contra hno
    have hconverse := (min_max_converse_iff [] read_release05 read_release5).mpr hno
    exact absurd (hconverse.mp (by decide)) (by decide)

theorem min_max_not_converse :
    ¬∀ (os a b : Str) (va vb : Version), readBound a = .ok (.ok va) → readBound b = .ok (.ok vb) →
      ((maxCheck os b).isSatisfied os va = .ok (true,none) ↔
        (minCheck os a).isSatisfied os vb = .ok (true,none)) := by
  intro h
  have hmax : (maxCheck [] (str "1.2.3-5")).isSatisfied [] release05 = .ok (true,none) := by decide
  have hmin := (h [] _ _ _ _ read_release05 read_release5).mp hmax
  exact absurd hmin (by decide)

end VersionInfo
