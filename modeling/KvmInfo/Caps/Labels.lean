import KvmInfo.Caps.Flags

namespace Caps
open Exec

def CapDesc.Filled (cap : CapDesc) : Prop := ¬(cap.needMsr = 0 ∧ cap.needExtension = 0)

instance (cap : CapDesc) : Decidable cap.Filled := inferInstanceAs (Decidable (¬_))

def activeCaps : List CapDesc := allcaps.takeWhile (fun cap => cap.Filled)

def Enabled (l : List UInt32) (answer : UInt32 → ℤ) (cap : CapDesc) : Prop :=
  (cap.needMsr = 0 ∨ Listed cap.msr.toNat l) ∧
    (cap.needExtension = 0 ∨ 0 < answer cap.extension)

instance (l : List UInt32) (answer : UInt32 → ℤ) (cap : CapDesc) :
    Decidable (Enabled l answer cap) :=
  inferInstanceAs (Decidable ((_ ∨ _) ∧ (_ ∨ _)))

def featureLabel (cap : CapDesc) : Bytes := cstr "/kvm-info-cap-hyperv-" ++ cap.name ++ cstr "\n"

def missingLabel (cap : CapDesc) : Bytes :=
  cstr "/kvm-info-cap-hyperv-" ++ cap.name ++ cstr "=false\n"

def labels (l : List UInt32) (answer : UInt32 → ℤ) (mode : ℤ) : List Bytes :=
  if mode = KVM_INFO_SHOW_FEATURES then
    (activeCaps.filter (fun cap => Enabled l answer cap)).map featureLabel
  else if mode = KVM_INFO_SHOW_MISSING then
    (activeCaps.filter (fun cap => ¬Enabled l answer cap)).map missingLabel
  else []

def suffixOf (mode : ℤ) : Bytes := if mode = KVM_INFO_SHOW_MISSING then cstr "=false" else []

def Emits (mode : ℤ) (enabled : Prop) [Decidable enabled] : Prop :=
  mustEmitLabel (if enabled then 1 else 0) mode ≠ 0

instance (mode : ℤ) (enabled : Prop) [Decidable enabled] : Decidable (Emits mode enabled) :=
  inferInstanceAs (Decidable (_ ≠ _))

def capLabel (l : List UInt32) (answer : UInt32 → ℤ) (mode : ℤ) (cap : CapDesc) : List Bytes :=
  if Emits mode (Enabled l answer cap) then [labelText (suffixOf mode) cap.name] else []

theorem allcaps_msr : ∀ cap ∈ allcaps, cap.msr.toNat < KVMINFO_MSR_HV_NUM := by decide

theorem allcaps_name : ∀ cap ∈ allcaps, cap.name.length ≤ 100 := by decide

theorem labelText_feature (cap : CapDesc) : labelText [] cap.name = featureLabel cap := by
  rw [labelText,List.append_nil,featureLabel]

theorem labelText_missing (cap : CapDesc) :
    labelText (cstr "=false") cap.name = missingLabel cap := by
  have hline : cstr "=false" ++ cstr "\n" = cstr "=false\n" := rfl
  rw [labelText,List.append_assoc _ (cstr "=false"),hline,missingLabel]

theorem snprintf_label {cap : CapDesc} (h : cap ∈ allcaps) (mode : ℤ) :
    snprintf CAP_NAME_MAX (labelText (suffixOf mode) cap.name) =
      labelText (suffixOf mode) cap.name := by
  have hname := allcaps_name cap h
  have hhead : (cstr "/kvm-info-cap-hyperv-").length = 21 := by decide
  have hline : (cstr "\n").length = 1 := by decide
  have hsuffix : (suffixOf mode).length ≤ 6 := by
    rw [suffixOf]
    split_ifs <;> decide
  apply List.take_of_length_le
  simp only [labelText,List.length_append,hhead,hline,CAP_NAME_MAX]
  omega

theorem filter_map_flatMap {α β : Type} (p : α → Prop) [DecidablePred p] (f : α → β) (xs : List α) :
    (xs.filter (fun x => p x)).map f = xs.flatMap (fun x => if p x then [f x] else []) := by
  induction xs with
  | nil => rfl
  | cons x xs ih =>
    rw [List.flatMap_cons,← ih]
    by_cases h : p x <;> simp [h]

theorem labels_eq (l : List UInt32) (answer : UInt32 → ℤ) (mode : ℤ) :
    labels l answer mode = activeCaps.flatMap (capLabel l answer mode) := by
  rw [labels]
  split_ifs with hf hm
  · rw [filter_map_flatMap]
    congr 1
    funext cap
    simp [capLabel,Emits,mustEmitLabel,suffixOf,hf,labelText_feature,KVM_INFO_SHOW_FEATURES,
      KVM_INFO_SHOW_MISSING]
  · rw [filter_map_flatMap (fun cap => ¬Enabled l answer cap)]
    congr 1
    funext cap
    simp [capLabel,Emits,mustEmitLabel,suffixOf,hm,labelText_missing,KVM_INFO_SHOW_FEATURES,
      KVM_INFO_SHOW_MISSING]
  · have : capLabel l answer mode = fun _ => [] := by
      funext cap
      simp [capLabel,Emits,mustEmitLabel,hf,hm]
    simp [this]

theorem labels_partition (l : List UInt32) (answer : UInt32 → ℤ) :
    ∃ shown missing : List CapDesc, (shown ++ missing).Perm activeCaps ∧ shown.Disjoint missing ∧
      labels l answer KVM_INFO_SHOW_FEATURES = shown.map featureLabel ∧
      labels l answer KVM_INFO_SHOW_MISSING = missing.map missingLabel := by
  refine ⟨_,_,?_,?_,rfl,rfl⟩
  · have := List.filter_append_perm (fun cap => decide (Enabled l answer cap)) activeCaps
    simpa using this
  · intro cap hs hm
    have hs := (List.mem_filter.mp hs).2
    have hm := (List.mem_filter.mp hm).2
    simp only [decide_eq_true_eq] at hs hm
    exact hm hs

section runs
variable {W : Type} {io : Io W} {m m' : Machine W} {s : KVMState} {cap : CapDesc}
variable {mode r : ℤ} {suffix : Bytes}

theorem runs_capBody (hmsr : cap.msr.toNat < KVMINFO_MSR_HV_NUM)
    (hext : cap.needExtension ≠ 0 → Runs (io.kvmHasExtension s.fd cap.extension) m r m')
    (hskip : cap.needExtension = 0 → m' = m) :
    Runs (capBody io s mode suffix cap) m ()
      (if Emits mode ((cap.needMsr = 0 ∨ flag s cap.msr.toNat ≠ 0) ∧
          (cap.needExtension = 0 ∨ r ≠ 0)) then
        m'.emit (snprintf CAP_NAME_MAX (labelText suffix cap.name))
      else m') := by
  have hmsrOk : ∃ a, Runs (msrQuery s cap) m a m ∧
      (a ≠ 0 ↔ cap.needMsr = 0 ∨ flag s cap.msr.toNat ≠ 0) := by
    rw [msrQuery]
    split_ifs with h
    · exact ⟨_,runs_hasEnabledMSR hmsr,by simp [h]⟩
    · exact ⟨1,runs_pure,by simp [not_not.mp h]⟩
  have hextOk : ∃ b, Runs (extQuery io s cap) m b m' ∧
      (b ≠ 0 ↔ cap.needExtension = 0 ∨ r ≠ 0) := by
    rw [extQuery]
    split_ifs with h
    · exact ⟨r,hext h,by simp [h]⟩
    · have h := not_not.mp h
      exact ⟨1,hskip h ▸ runs_pure,by simp [h]⟩
  obtain ⟨a,ha,ha'⟩ := hmsrOk
  obtain ⟨b,hb,hb'⟩ := hextOk
  refine ha.bind (hb.bind ?_)
  simp only [Emits,← ha',← hb']
  split_ifs with hab hemit hemit
  · exact runs_modify
  · exact runs_pure
  · exact runs_modify
  · exact runs_pure

theorem capLoop_rule {caps : List CapDesc} (J : List CapDesc → Machine W → Prop)
    (hstep : ∀ done cap m, cap ∈ caps → J done m →
      ∃ m', Runs (capBody io s mode suffix cap) m () m' ∧ J (done ++ [cap]) m')
    (done : List CapDesc) (h : J done m) :
    ∃ m', Runs (capLoop io s mode suffix caps) m () m' ∧
      J (done ++ caps.takeWhile (fun cap => cap.Filled)) m' := by
  induction caps generalizing done m with
  | nil => exact ⟨m,runs_pure,by simpa using h⟩
  | cons cap caps ih =>
    by_cases hf : cap.Filled
    · obtain ⟨m₁,hbody,h₁⟩ := hstep done cap m (by simp) h
      obtain ⟨m',hloop,h'⟩ := ih (fun done cap m hc => hstep done cap m (by simp [hc]))
        (done ++ [cap]) h₁
      refine ⟨m',?_,by simpa [hf] using h'⟩
      rw [capLoop,if_neg hf]
      exact hbody.bind hloop
    · refine ⟨m,?_,by simpa [hf] using h⟩
      rw [capLoop,if_pos (not_not.mp hf)]
      exact runs_pure

structure Io.Serves (io : Io W) (fd : ℤ) (A : UInt32 → ℤ → Prop) (I : Machine W → Prop) :
    Prop where
  answers : ∀ m ext, I m → ∃ r m', Runs (io.kvmHasExtension fd ext) m r m' ∧ A ext r ∧ I m' ∧
    m'.emitted = m.emitted
  emits : ∀ m cap, I m → I (m.emit cap)

variable {A : UInt32 → ℤ → Prop} {I : Machine W → Prop}

theorem Io.Serves.body (h : io.Serves s.fd A I) (hmsr : cap.msr.toNat < KVMINFO_MSR_HV_NUM)
    (hm : I m) :
    ∃ r m', Runs (capBody io s mode suffix cap) m () m' ∧ I m' ∧
      (cap.needExtension ≠ 0 → A cap.extension r) ∧ m'.emitted = m.emitted ++
        if Emits mode ((cap.needMsr = 0 ∨ flag s cap.msr.toNat ≠ 0) ∧
          (cap.needExtension = 0 ∨ r ≠ 0)) then
            [snprintf CAP_NAME_MAX (labelText suffix cap.name)]
        else [] := by
  have hquery : ∃ r m', (cap.needExtension ≠ 0 →
      Runs (io.kvmHasExtension s.fd cap.extension) m r m' ∧ A cap.extension r) ∧
      (cap.needExtension = 0 → m' = m) ∧ I m' ∧ m'.emitted = m.emitted := by
    by_cases he : cap.needExtension = 0
    · exact ⟨0,m,fun h => absurd he h,fun _ => rfl,hm,rfl⟩
    · obtain ⟨r,m',hr,hA,hI,hem⟩ := h.answers m cap.extension hm
      exact ⟨r,m',fun _ => ⟨hr,hA⟩,fun h => absurd h he,hI,hem⟩
  obtain ⟨r,m',hr,hskip,hI,hem⟩ := hquery
  refine ⟨r,_,runs_capBody hmsr (fun h => (hr h).1) hskip,?_,fun h => (hr h).2,?_⟩
  · split_ifs
    · exact h.emits m' _ hI
    · exact hI
  · split_ifs <;> simp [hem]

theorem Io.Serves.loop (mode : ℤ) (suffix : Bytes) (h : io.Serves s.fd A I) (hm : I m) :
    ∃ m', Runs (capLoop io s mode suffix allcaps) m () m' ∧ I m' := by
  apply capLoop_rule (fun _ m => I m) _ [] hm
  intro done cap m hc hm
  obtain ⟨r,m',hr,hI,-,-⟩ := h.body (allcaps_msr cap hc) hm
  exact ⟨m',hr,hI⟩

theorem Io.Serves.loop_labels {l : List UInt32} {answer : UInt32 → ℤ} (mode : ℤ)
    (h : io.Serves s.fd (fun ext r => r ≠ 0 ↔ 0 < answer ext) I) (hm : I m)
    (hflag : ∀ slot, flag s slot ≠ 0 ↔ Listed slot l) :
    ∃ m', Runs (capLoop io s mode (suffixOf mode) allcaps) m () m' ∧ I m' ∧
      m'.emitted = m.emitted ++ labels l answer mode := by
  rw [labels_eq]
  apply capLoop_rule (fun done m' => I m' ∧
    m'.emitted = m.emitted ++ done.flatMap (capLabel l answer mode)) _ [] ⟨hm,by simp⟩
  intro done cap m' hc ⟨hm',hem⟩
  obtain ⟨r,m₁,hr,hI,hA,hem₁⟩ := h.body (allcaps_msr cap hc) hm'
  refine ⟨m₁,hr,hI,?_⟩
  have henabled : ((cap.needMsr = 0 ∨ flag s cap.msr.toNat ≠ 0) ∧
      (cap.needExtension = 0 ∨ r ≠ 0)) ↔ Enabled l answer cap := by
    rw [Enabled,hflag]
    by_cases he : cap.needExtension = 0
    · simp [he]
    · simp [he,hA he]
  rw [hem₁,hem,List.append_assoc,List.flatMap_append,List.flatMap_singleton,capLabel,
    snprintf_label hc]
  simp only [henabled]

theorem runs_scan_unopened {dev : Bytes} {err : ℤ} {s : Option KVMState}
    (hopen : Runs (kvmStateOpen io (some .init) dev) m (err,s) m') (herr : err ≠ 0) :
    Runs (kvmStateScan io dev mode) m 0 m' := by
  refine hopen.bind ?_
  simp only [herr,ne_eq,not_false_eq_true,if_true]
  exact runs_pure

theorem runs_scan {dev : Bytes} {m₁ m₂ : Machine W} {err : ℤ}
    (hopen : Runs (kvmStateOpen io (some .init) dev) m (0,some s) m₁)
    (hloop : Runs (capLoop io s mode (suffixOf mode) allcaps) m₁ () m₂)
    (hfd : s.fd ≠ -1) (hclose : Runs (io.kvmClose s.fd) m₂ err m') :
    Runs (kvmStateScan io dev mode) m 0 m' := by
  have hcloseState : ∃ r, Runs (kvmStateClose io (some s)) m₂ r m' := by
    simp only [kvmStateClose,if_pos hfd]
    by_cases he : err = 0
    · exact ⟨_,hclose.bind (by rw [if_pos he]; exact runs_pure)⟩
    · exact ⟨_,hclose.bind (by rw [if_neg he]; exact runs_pure)⟩
  obtain ⟨r,hr⟩ := hcloseState
  refine hopen.bind ?_
  simp only [ne_eq,not_true_eq_false,if_false,deref]
  exact runs_pure.bind (hloop.bind (hr.bind runs_pure))

theorem Io.scan_rule {dev : Bytes} {fd : ℤ} {l : List UInt32} {Q R : Machine W → Prop}
    (hlists : io.Lists dev m fd l m') (hl : l.length < 2 ^ 31)
    (hloop : ∃ m₁, Runs (capLoop io (openedState fd l) mode (suffixOf mode) allcaps) m' () m₁ ∧ Q m₁)
    (hclose : ∀ m₁, Q m₁ → ∃ err m₂, Runs (io.kvmClose fd) m₁ err m₂ ∧ R m₂) :
    ∃ m₂, Runs (kvmStateScan io dev mode) m 0 m₂ ∧ R m₂ := by
  have hne : fd ≠ -1 := by
    have := hlists.1
    omega
  obtain ⟨m₁,hrun,hQ⟩ := hloop
  obtain ⟨err,m₂,hrun₂,hR⟩ := hclose m₁ hQ
  exact ⟨m₂,runs_scan (runs_open_lists hlists hl .init) hrun (by rwa [foldl_mark_fd])
    (by rwa [foldl_mark_fd]),hR⟩

theorem Io.scan_labels {dev : Bytes} {fd : ℤ} {l : List UInt32} {answer : UInt32 → ℤ} (mode : ℤ)
    (hlists : io.Lists dev m fd l m') (hl : l.length < 2 ^ 31)
    (h : io.Serves fd (fun ext r => r ≠ 0 ↔ 0 < answer ext) I) (hm : I m')
    (hclose : ∀ m, I m → ∃ err m', Runs (io.kvmClose fd) m err m' ∧ m'.emitted = m.emitted) :
    ∃ m₂, Runs (kvmStateScan io dev mode) m 0 m₂ ∧
      m₂.emitted = m'.emitted ++ labels l answer mode := by
  rw [← openedState_fd fd l] at h
  apply Io.scan_rule hlists hl (h.loop_labels mode hm (flag_openedState fd l))
  rintro m₁ ⟨hm₁,hem⟩
  obtain ⟨err,m₂,hrun,hem₂⟩ := hclose m₁ hm₁
  exact ⟨err,m₂,hrun,hem₂.trans hem⟩

end runs
end Caps
