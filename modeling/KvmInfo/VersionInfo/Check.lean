import KvmInfo.Go.Unicode
import KvmInfo.GoVersion.Parse

namespace VersionInfo
open Go GoVersion

structure Check where
  os : Str
  feature : Str
  kernelMinVer : Str
  kernelMaxVer : Str
  deriving DecidableEq, Repr

def hasFeature (name : Str) : List Str → Bool
  | [] => false
  | feature :: features => if feature = name then true else hasFeature name features

def Check.isValid (c : Check) (features : List Str) : Bool :=
  if c.feature = [] ∨ c.os = [] then false
  else if c.kernelMinVer = [] ∧ c.kernelMaxVer = [] then false
  else hasFeature c.feature features

def dashRune : Rune := 0x2D
def dotRune : Rune := 0x2E

def inVersion (c : Rune) : Bool := isDigit c || c == dashRune || c == dotRune

def sanitizeLoop (ver : Str) (pc : Rune) : List (ℕ × Rune) → Eval Str
  | [] => .ok ver
  | (i,c) :: rest =>
      if inVersion c then sanitizeLoop ver c rest
      else if (i : ℤ) > 0 && !isDigit pc then sliceTo ver ((i : ℤ) - 1)
      else sliceTo ver i

def sanitizeVersion (ver : Str) : Eval Str := sanitizeLoop ver 0x00 (rangeString ver)

def readBound (bound : Str) : Eval (Except Str Version) := do NewVersion (← sanitizeVersion bound)

-- `some` is an early return of the caller.
def boundBranch (fails : ℤ → Bool) (bound : Str) (ver : Version) :
    Eval (Option (Bool × Option Str)) :=
  if bound ≠ [] then do
    match ← readBound bound with
    | .error err => return some (false,some err)
    | .ok boundVer => if fails (← ver.compare boundVer) then return some (false,none) else return none
  else return none

def Check.minBranch (c : Check) (ver : Version) : Eval (Option (Bool × Option Str)) :=
  boundBranch (fun compare => compare < 0) c.kernelMinVer ver

def Check.maxBranch (c : Check) (ver : Version) : Eval (Option (Bool × Option Str)) :=
  boundBranch (fun compare => compare > 0) c.kernelMaxVer ver

def Check.isSatisfied (c : Check) (os : Str) (ver : Version) : Eval (Bool × Option Str) :=
  if c.os ≠ os then return (false,none)
  else do
    match ← c.minBranch ver with
    | some result => return result
    | none =>
        match ← c.maxBranch ver with
        | some result => return result
        | none => return (true,none)

theorem hasFeature_iff (name : Str) (features : List Str) :
    hasFeature name features = true ↔ name ∈ features := by
  induction features with
  | nil => simp [hasFeature]
  | cons feature features ih =>
    rw [hasFeature]
    split_ifs with h
    · simp [h]
    · simp [ih,Ne.symm h]

theorem isValid_iff (c : Check) (features : List Str) :
    c.isValid features = true ↔ c.feature ≠ [] ∧ c.os ≠ [] ∧
      (c.kernelMinVer ≠ [] ∨ c.kernelMaxVer ≠ []) ∧ c.feature ∈ features := by
  unfold Check.isValid
  split_ifs with h1 h2
  · simp only [false_iff]
    tauto
  · simp only [false_iff]
    tauto
  · rw [hasFeature_iff]
    tauto

def versionByte (b : UInt8) : Prop := isDecimal b = true ∨ b = dot ∨ b = dash

theorem versionByte_ascii {b : UInt8} (h : versionByte b) : b < 0x80 := by
  rcases h with h | rfl | rfl
  · have := isDecimal_iff.mp h
    rw [UInt8.lt_iff_toNat_lt]
    have : b.toNat < 128 := by omega
    simpa using this
  · decide
  · decide

theorem inVersion_ascii {b : UInt8} (hb : b < 0x80) : inVersion b.toNat = true ↔ versionByte b := by
  have hdash : b.toNat = dashRune ↔ b = dash := by
    rw [← UInt8.toNat_inj]
    rfl
  have hdot : b.toNat = dotRune ↔ b = dot := by
    rw [← UInt8.toNat_inj]
    rfl
  simp only [inVersion,isDigit_ascii b hb,Bool.or_eq_true,beq_iff_eq,hdash,hdot,versionByte]
  tauto

def startsTag (s : Str) : Prop := s ≠ [] ∧ inVersion (decodeRune s).1 = false

theorem rangeFrom_head (i : ℕ) (s : Str) (hs : s ≠ []) :
    ∃ rest, rangeFrom 0 i s = (i,(decodeRune s).1) :: rest := by
  obtain ⟨b,u,rfl⟩ := List.exists_cons_of_ne_nil hs
  exact ⟨_,rfl⟩

def keptByte (b : UInt8) : Prop := versionByte b ∨ 0x80 ≤ b

theorem keptByte_of_inVersion {b : UInt8} {s : Str} (h : inVersion (decodeRune (b :: s)).1 = true) :
    keptByte b ∧ ∀ c ∈ s.take ((decodeRune (b :: s)).2 - 1), 0x80 ≤ c := by
  by_cases hb : b < 0x80
  · rw [decodeRune_ascii b s hb] at h ⊢
    exact ⟨Or.inl ((inVersion_ascii hb).mp h),by simp⟩
  · rw [decodeRune,if_neg hb] at h ⊢
    refine ⟨Or.inr (UInt8.not_lt.mp hb),?_⟩
    rcases decodeMulti_cont b s with he | hc
    · rw [he] at h
      exact absurd h (by decide)
    · exact hc

theorem sanitizeLoop_take (ver pre s : Str) (pc : Rune) (skip : ℕ) (hver : ver = pre ++ s)
    (hpre : ∀ b ∈ pre, keptByte b) (hskip : ∀ b ∈ s.take skip, 0x80 ≤ b) :
    ∃ k ≤ ver.length, sanitizeLoop ver pc (rangeFrom skip pre.length s) = .ok (ver.take k) ∧
      ∀ b ∈ ver.take k, keptByte b := by
  induction s generalizing pre pc skip with
  | nil =>
    have hv : ver = pre := by simpa using hver
    exact ⟨ver.length,le_rfl,by simp [rangeFrom,sanitizeLoop],by simpa [hv] using hpre⟩
  | cons b s ih =>
    have hnext : ver = (pre ++ [b]) ++ s := by simpa using hver
    have hlen : pre.length + 1 = (pre ++ [b]).length := by simp
    have hkeep (hb : keptByte b) : ∀ c ∈ pre ++ [b], keptByte c := by
      intro c hc
      rcases List.mem_append.mp hc with hc | hc
      · exact hpre c hc
      · have : c = b := by simpa using hc
        exact this ▸ hb
    cases skip with
    | succ skip =>
      simp only [List.take_succ_cons,List.mem_cons,forall_eq_or_imp] at hskip
      rw [rangeFrom,hlen]
      exact ih (pre ++ [b]) pc skip hnext (hkeep (Or.inr hskip.1)) hskip.2
    | zero =>
      rw [rangeFrom,sanitizeLoop]
      split_ifs with hin hcut
      · obtain ⟨hb,hcont⟩ := keptByte_of_inVersion hin
        rw [hlen]
        exact ih (pre ++ [b]) _ _ hnext (hkeep hb) hcont
      · have hpos : 0 < pre.length := by
          simp only [Bool.and_eq_true,decide_eq_true_eq] at hcut
          omega
        have hcast : ((pre.length : ℕ) : ℤ) - 1 = ((pre.length - 1 : ℕ) : ℤ) := by omega
        have hle : pre.length - 1 ≤ ver.length := by rw [hver,List.length_append]; omega
        refine ⟨pre.length - 1,hle,by rw [hcast,sliceTo_ok _ _ hle],?_⟩
        intro c hc
        rw [hver,List.take_append_of_le_length (by omega)] at hc
        exact hpre c (List.mem_of_mem_take hc)
      · have hle : pre.length ≤ ver.length := by rw [hver,List.length_append]; omega
        refine ⟨pre.length,hle,sliceTo_ok _ _ hle,?_⟩
        rw [hver,List.take_left]
        exact hpre

theorem sanitizeVersion_take (ver : Str) :
    ∃ k ≤ ver.length, sanitizeVersion ver = .ok (ver.take k) ∧ ∀ b ∈ ver.take k, keptByte b :=
  sanitizeLoop_take ver [] ver 0x00 0 rfl (by simp) (by simp)

theorem plusSign_not_kept : ¬keptByte plusSign := by
  rintro ((h | h | h) | h) <;> exact absurd h (by decide)

theorem sanitizeVersion_ok (ver : Str) : ∃ s, sanitizeVersion ver = .ok s ∧ plusSign ∉ s := by
  obtain ⟨k,-,hk,hkept⟩ := sanitizeVersion_take ver
  exact ⟨_,hk,fun h => plusSign_not_kept (hkept plusSign h)⟩

theorem readBound_ok (bound : Str) : ∃ r, readBound bound = .ok r := by
  obtain ⟨s,hs,-⟩ := sanitizeVersion_ok bound
  obtain ⟨r,hr⟩ := newVersion_ok s
  exact ⟨r,by rw [readBound,hs]; exact hr⟩

theorem readBound_plain {bound : Str} {v : Version} (h : readBound bound = .ok (.ok v)) :
    v.Plain := by
  obtain ⟨s,hs,hplus⟩ := sanitizeVersion_ok bound
  rw [readBound,hs] at h
  exact newVersion_plain h hplus

def BoundHolds (fails : ℤ → Bool) (bound : Str) (ver : Version) : Prop :=
  bound = [] ∨ ∃ boundVer compare, readBound bound = .ok (.ok boundVer) ∧
    ver.compare boundVer = .ok compare ∧ fails compare = false

def BoundFails (fails : ℤ → Bool) (bound : Str) (ver : Version) : Prop :=
  bound ≠ [] ∧ ∃ boundVer compare, readBound bound = .ok (.ok boundVer) ∧
    ver.compare boundVer = .ok compare ∧ fails compare = true

def Unreadable (bound err : Str) : Prop := bound ≠ [] ∧ readBound bound = .ok (.error err)

theorem boundBranch_verdict (fails : ℤ → Bool) (bound : Str) (ver : Version) :
    (boundBranch fails bound ver = .ok none ∧ BoundHolds fails bound ver) ∨
      (boundBranch fails bound ver = .ok (some (false,none)) ∧ BoundFails fails bound ver) ∨
      ∃ err, boundBranch fails bound ver = .ok (some (false,some err)) ∧ Unreadable bound err := by
  by_cases hb : bound = []
  · exact Or.inl ⟨by simp [boundBranch,hb,pure,Except.pure],Or.inl hb⟩
  · obtain ⟨r,hr⟩ := readBound_ok bound
    cases r with
    | error err =>
      refine Or.inr (Or.inr ⟨err,?_,hb,hr⟩)
      simp [boundBranch,hb,hr,bind,Except.bind,pure,Except.pure]
    | ok boundVer =>
      obtain ⟨c,hc⟩ := compare_ok ver boundVer
      cases hf : fails c with
      | false =>
        exact Or.inl ⟨by simp [boundBranch,hb,hr,hc,hf,bind,Except.bind,pure,Except.pure],
          Or.inr ⟨boundVer,c,hr,hc,hf⟩⟩
      | true =>
        exact Or.inr (Or.inl ⟨by simp [boundBranch,hb,hr,hc,hf,bind,Except.bind,pure,Except.pure],
          hb,boundVer,c,hr,hc,hf⟩)

theorem fails_not_holds {fails : ℤ → Bool} {bound : Str} {ver : Version}
    (h : BoundFails fails bound ver) : ¬BoundHolds fails bound ver := by
  obtain ⟨hb,boundVer,c,hr,hc,hf⟩ := h
  rintro (hnil | ⟨v,d,hv,hd,hfd⟩)
  · exact hb hnil
  · rw [hr] at hv
    cases hv
    rw [hc] at hd
    cases hd
    simp [hf] at hfd

theorem unreadable_not_holds {fails : ℤ → Bool} {bound err : Str} {ver : Version}
    (h : Unreadable bound err) : ¬BoundHolds fails bound ver := by
  rintro (hb | ⟨v,c,hv,-⟩)
  · exact h.1 hb
  · simp [h.2] at hv

def Check.Holds (c : Check) (os : Str) (ver : Version) : Prop :=
  c.os = os ∧ BoundHolds (fun compare => compare < 0) c.kernelMinVer ver ∧
    BoundHolds (fun compare => compare > 0) c.kernelMaxVer ver

def Check.Unfulfilled (c : Check) (os : Str) (ver : Version) : Prop :=
  c.os ≠ os ∨ BoundFails (fun compare => compare < 0) c.kernelMinVer ver ∨
    BoundHolds (fun compare => compare < 0) c.kernelMinVer ver ∧
      BoundFails (fun compare => compare > 0) c.kernelMaxVer ver

def Check.Failed (c : Check) (os : Str) (ver : Version) (err : Str) : Prop :=
  c.os = os ∧ (Unreadable c.kernelMinVer err ∨
    BoundHolds (fun compare => compare < 0) c.kernelMinVer ver ∧ Unreadable c.kernelMaxVer err)

theorem isSatisfied_verdict (c : Check) (os : Str) (ver : Version) :
    (c.isSatisfied os ver = .ok (true,none) ∧ c.Holds os ver) ∨
      (c.isSatisfied os ver = .ok (false,none) ∧ c.Unfulfilled os ver) ∨
      ∃ err, c.isSatisfied os ver = .ok (false,some err) ∧ c.Failed os ver err := by
  unfold Check.isSatisfied
  by_cases hos : c.os = os
  · rw [if_neg (not_not.mpr hos)]
    rcases boundBranch_verdict (fun compare => compare < 0) c.kernelMinVer ver with
      ⟨hmin,hmin'⟩ | ⟨hmin,hmin'⟩ | ⟨err,hmin,hmin'⟩
    · rcases boundBranch_verdict (fun compare => compare > 0) c.kernelMaxVer ver with
        ⟨hmax,hmax'⟩ | ⟨hmax,hmax'⟩ | ⟨err,hmax,hmax'⟩
      · exact Or.inl ⟨by rw [Check.minBranch,hmin,Check.maxBranch,hmax]; rfl,hos,hmin',hmax'⟩
      · exact Or.inr (Or.inl ⟨by rw [Check.minBranch,hmin,Check.maxBranch,hmax]; rfl,
          Or.inr (Or.inr ⟨hmin',hmax'⟩)⟩)
      · exact Or.inr (Or.inr ⟨err,by rw [Check.minBranch,hmin,Check.maxBranch,hmax]; rfl,hos,
          Or.inr ⟨hmin',hmax'⟩⟩)
    · exact Or.inr (Or.inl ⟨by rw [Check.minBranch,hmin]; rfl,Or.inr (Or.inl hmin')⟩)
    · exact Or.inr (Or.inr ⟨err,by rw [Check.minBranch,hmin]; rfl,hos,Or.inl hmin'⟩)
  · rw [if_pos hos]
    exact Or.inr (Or.inl ⟨rfl,Or.inl hos⟩)

theorem unfulfilled_not_holds {c : Check} {os : Str} {ver : Version} (h : c.Unfulfilled os ver) :
    ¬c.Holds os ver := by
  rintro ⟨hos,hmin,hmax⟩
  rcases h with h | h | h
  · exact h hos
  · exact fails_not_holds h hmin
  · exact fails_not_holds h.2 hmax

theorem failed_not_holds {c : Check} {os : Str} {ver : Version} {err : Str}
    (h : c.Failed os ver err) : ¬c.Holds os ver := by
  rintro ⟨-,hmin,hmax⟩
  rcases h.2 with h | h
  · exact unreadable_not_holds h hmin
  · exact unreadable_not_holds h.2 hmax

theorem fails_readable {fails : ℤ → Bool} {bound err : Str} {ver : Version}
    (h : BoundFails fails bound ver) : ¬Unreadable bound err := by
  obtain ⟨-,boundVer,compare,hr,-⟩ := h
  rintro ⟨-,herr⟩
  rw [hr] at herr
  cases herr

theorem failed_not_unfulfilled {c : Check} {os : Str} {ver : Version} {err : Str}
    (h : c.Failed os ver err) : ¬c.Unfulfilled os ver := by
  obtain ⟨hos,hmin | ⟨hmin,hmax⟩⟩ := h
  · rintro (hne | hfails | ⟨hholds,-⟩)
    · exact hne hos
    · exact fails_readable hfails hmin
    · exact unreadable_not_holds hmin hholds
  · rintro (hne | hfails | ⟨-,hfails⟩)
    · exact hne hos
    · exact fails_not_holds hfails hmin
    · exact fails_readable hfails hmax

theorem unreadable_unique {bound err err' : Str} (h : Unreadable bound err)
    (h' : Unreadable bound err') : err = err' := by
  have heq := h.2.symm.trans h'.2
  cases heq
  rfl

theorem failed_unique {c : Check} {os : Str} {ver : Version} {err err' : Str}
    (h : c.Failed os ver err) (h' : c.Failed os ver err') : err = err' := by
  rcases h.2 with hmin | ⟨hholds,hmax⟩ <;> rcases h'.2 with hmin' | ⟨hholds',hmax'⟩
  · exact unreadable_unique hmin hmin'
  · exact absurd hholds' (unreadable_not_holds hmin)
  · exact absurd hholds (unreadable_not_holds hmin')
  · exact unreadable_unique hmax hmax'

theorem isSatisfied_cases (c : Check) (os : Str) (ver : Version) :
    (c.isSatisfied os ver = .ok (true,none) ∧ c.Holds os ver) ∨
      ∃ err, c.isSatisfied os ver = .ok (false,err) ∧ ¬c.Holds os ver := by
  rcases isSatisfied_verdict c os ver with h | ⟨h,hh⟩ | ⟨err,h,hh⟩
  · exact Or.inl h
  · exact Or.inr ⟨none,h,unfulfilled_not_holds hh⟩
  · exact Or.inr ⟨some err,h,failed_not_holds hh⟩

theorem isSatisfied_true_iff (c : Check) (os : Str) (ver : Version) :
    c.isSatisfied os ver = .ok (true,none) ↔ c.Holds os ver := by
  rcases isSatisfied_cases c os ver with ⟨h,hh⟩ | ⟨err,h,hh⟩
  · simp [h,hh]
  · simp [h,hh]

theorem isSatisfied_ok (c : Check) (os : Str) (ver : Version) :
    ∃ r, c.isSatisfied os ver = .ok r := by
  rcases isSatisfied_cases c os ver with ⟨h,-⟩ | ⟨err,h,-⟩
  · exact ⟨_,h⟩
  · exact ⟨_,h⟩

end VersionInfo
