import KvmInfo.Caps.HostScan

namespace Caps
open Exec

inductive StateCall where
  | stateOpen (devkvm : Bytes) (ret : ℤ)
  | stateClose (err : ℤ)
  deriving DecidableEq

abbrev Handle := Host × KVMState

def StateStep (k : Kernel) (h : Handle) : StateCall → Handle → Prop
  | .stateOpen dev ret, h' =>
      Runs (kvmStateOpen (kernelIo k) (some h.2) dev) h.1 (ret,some h'.2) h'.1
  | .stateClose err, h' =>
      Runs (kvmStateClose (kernelIo k) (some h.2)) h.1 (err,some h'.2) h'.1

def gained (k : Kernel) (x : Handle × StateCall × Handle) : Option (List UInt32) :=
  match x.2.1 with
  | .stateOpen dev _ => k.obtained x.1.1 dev
  | .stateClose _ => none

def FlagsMatch (h : Handle) (l : List UInt32) : Prop :=
  ∀ slot, KVMINFO_MSR_HV_CRASH ≤ slot → slot < KVMINFO_MSR_HV_NUM →
    ∃ r, Runs (kvmStateHasEnabledMSR (some h.2) (UInt32.ofNat slot)) h.1 r h.1 ∧
      (r ≠ 0 ↔ Listed slot l)

def Covers (l l' : List UInt32) : Prop := ∀ slot, Listed slot l → Listed slot l'

theorem listed_slot {slot : ℕ} {l : List UInt32} (h : Listed slot l) :
    KVMINFO_MSR_HV_CRASH ≤ slot ∧ slot < KVMINFO_MSR_HV_NUM := by
  obtain ⟨index,-,h⟩ := h
  exact slotMsrs_lt _ h

theorem flagsMatch_iff (h : Handle) (l : List UInt32) :
    FlagsMatch h l ↔ ∀ slot, KVMINFO_MSR_HV_CRASH ≤ slot → slot < KVMINFO_MSR_HV_NUM →
      (flag h.2 slot ≠ 0 ↔ Listed slot l) := by
  have hnat (slot : ℕ) (hs : slot < KVMINFO_MSR_HV_NUM) : (UInt32.ofNat slot).toNat = slot :=
    UInt32.toNat_ofNat_of_lt' (hs.trans (by decide))
  constructor
  · intro hm slot h1 h2
    obtain ⟨r,hr,hiff⟩ := hm slot h1 h2
    have hrun : Runs (kvmStateHasEnabledMSR (some h.2) (UInt32.ofNat slot)) h.1 _ h.1 :=
      runs_hasEnabledMSR (by rwa [hnat slot h2])
    rw [hnat slot h2] at hrun
    rwa [(hr.functional hrun).1] at hiff
  · intro hm slot h1 h2
    have hrun : Runs (kvmStateHasEnabledMSR (some h.2) (UInt32.ofNat slot)) h.1 _ h.1 :=
      runs_hasEnabledMSR (by rwa [hnat slot h2])
    rw [hnat slot h2] at hrun
    exact ⟨_,hrun,hm slot h1 h2⟩

theorem runs_state_inj {p : C Sys (ℤ × Option KVMState)} {m m₁ m₂ : Host} {r₁ r₂ : ℤ}
    {s₁ s₂ : KVMState} (h₁ : Runs p m (r₁,some s₁) m₁) (h₂ : Runs p m (r₂,some s₂) m₂) :
    r₁ = r₂ ∧ s₁ = s₂ := by
  simpa using (h₁.functional h₂).1

section steps
variable {k : Kernel} {h h' : Handle}

def Accumulated (s : KVMState) (seen : List (List UInt32)) : Prop :=
  ∀ slot, flag s slot ≠ 0 ↔ ∃ l ∈ seen, Listed slot l

theorem open_cases {dev : Bytes} {ret : ℤ} (hs : StateStep k h (.stateOpen dev ret) h') :
    (∃ l fd, ret = 0 ∧ k.obtained h.1 dev = some l ∧ h'.2 = l.foldl mark { h.2 with fd := fd }) ∨
      ∃ fd, ret = -1 ∧ k.obtained h.1 dev = none ∧ h'.2 = { h.2 with fd := fd } := by
  rcases obtained_cases k h.1 dev with ⟨l,hl⟩ | hst | hf
  · obtain ⟨m₁,hlists,-⟩ := kernel_lists hl
    by_cases hlen : l.length < 2 ^ 31
    · obtain ⟨hret,hstate⟩ := runs_state_inj hs (runs_open_lists hlists hlen h.2)
      exact Or.inl ⟨l,_,hret,hl,hstate⟩
    · exact absurd (faults_open_lists hlists (not_lt.mp hlen) h.2) (Runs.not_faults hs)
  · obtain ⟨m₁,hopen,-⟩ := kernel_stranded hst h.2
    obtain ⟨hret,hstate⟩ := runs_state_inj hs hopen
    exact Or.inr ⟨_,hret,hst.2,hstate⟩
  · obtain ⟨hret,hstate⟩ := runs_state_inj hs (kernel_refused hf h.2)
    exact Or.inr ⟨_,hret,obtained_none_iff.mpr (Or.inr hf),hstate⟩

theorem close_flags {err : ℤ} (hs : StateStep k h (.stateClose err) h') (slot : ℕ) :
    flag h'.2 slot = flag h.2 slot := by
  have hs : Runs (kvmStateClose (kernelIo k) (some h.2)) h.1 (err,some h'.2) h'.1 := hs
  simp only [kvmStateClose] at hs
  split_ifs at hs with hfd
  · obtain ⟨e,m₁,-,hs⟩ := runs_bind_iff.mp hs
    split_ifs at hs with he
    · rw [(runs_state_inj hs runs_pure).2]
      rfl
    · rw [(runs_state_inj hs runs_pure).2]
  · rw [(runs_state_inj hs runs_pure).2]

theorem step_flags {call : StateCall} (hs : StateStep k h call h') (slot : ℕ) :
    flag h'.2 slot ≠ 0 ↔
      (∃ l, gained k (h,call,h') = some l ∧ Listed slot l) ∨ flag h.2 slot ≠ 0 := by
  cases call with
  | stateOpen dev ret =>
    rcases open_cases hs with ⟨l,fd,rfl,hl,he⟩ | ⟨fd,rfl,hn,he⟩
    · rw [he,flag_foldl_mark]
      simp [gained,hl,flag]
    · rw [he]
      simp [gained,hn,flag]
  | stateClose err =>
    rw [close_flags hs slot]
    simp [gained]

theorem step_accumulated {call : StateCall} {seen : List (List UInt32)} (hs : StateStep k h call h')
    (hseen : Accumulated h.2 seen) :
    Accumulated h'.2 (seen ++ (gained k (h,call,h')).toList) := by
  intro slot
  rw [step_flags hs,hseen slot]
  cases gained k (h,call,h') with
  | none => simp
  | some l =>
    simp only [Option.some.injEq,exists_eq_left',Option.toList_some,List.mem_append,
      List.mem_singleton]
    constructor
    · rintro (hl | ⟨l',hl',hl⟩)
      · exact ⟨l,Or.inr rfl,hl⟩
      · exact ⟨l',Or.inl hl',hl⟩
    · rintro ⟨l',hl' | rfl,hl⟩
      · exact Or.inr ⟨l',hl',hl⟩
      · exact Or.inl hl

theorem flagsMatch_covers {seen : List (List UInt32)} {l : List UInt32}
    (hseen : Accumulated h.2 (seen ++ [l])) : FlagsMatch h l ↔ ∀ l' ∈ seen, Covers l' l := by
  rw [flagsMatch_iff]
  constructor
  · intro hm l' hl' slot hs
    obtain ⟨h1,h2⟩ := listed_slot hs
    exact (hm slot h1 h2).mp ((hseen slot).mpr ⟨l',by simp [hl'],hs⟩)
  · intro hc slot h1 h2
    rw [hseen slot]
    constructor
    · rintro ⟨l',hl',hs⟩
      rcases List.mem_append.mp hl' with hl' | hl'
      · exact hc l' hl' slot hs
      · rwa [← List.mem_singleton.mp hl']
    · intro hs
      exact ⟨l,by simp,hs⟩

end steps

theorem run_flags_iff {k : Kernel} {h h' : Handle} {steps : List (Handle × StateCall × Handle)}
    (hrun : Run (StateStep k) h steps h') (seen : List (List UInt32))
    (hseen : Accumulated h.2 seen) :
    (∀ x ∈ steps, ∀ l, gained k x = some l → FlagsMatch x.2.2 l) ↔
      (∀ l ∈ seen, ∀ l' ∈ steps.filterMap (gained k), Covers l l') ∧
        (steps.filterMap (gained k)).Pairwise Covers := by
  induction hrun generalizing seen with
  | nil h => simp
  | @cons h h₁ h' call steps hs hrun ih =>
    have hacc := step_accumulated hs hseen
    rw [List.forall_mem_cons,ih _ hacc]
    cases hg : gained k (h,call,h₁) with
    | none => simp [hg]
    | some l =>
      rw [hg,Option.toList_some] at hacc
      rw [List.filterMap_cons_some hg,List.pairwise_cons]
      simp only [Option.some.injEq,forall_eq',flagsMatch_covers hacc,Option.toList_some,
        List.mem_append,List.mem_cons,List.not_mem_nil,or_false]
      constructor
      · rintro ⟨hl,hsteps,hpair⟩
        refine ⟨?_,fun l' hl' => hsteps l (Or.inr rfl) l' hl',hpair⟩
        rintro l₀ hl₀ l' (rfl | hl')
        · exact hl l₀ hl₀
        · exact hsteps l₀ (Or.inl hl₀) l' hl'
      · rintro ⟨hsteps,hl,hpair⟩
        refine ⟨fun l₀ hl₀ => hsteps l₀ hl₀ l (Or.inl rfl),?_,hpair⟩
        rintro l₀ (hl₀ | rfl) l' hl'
        · exact hsteps l₀ hl₀ l' (Or.inr hl')
        · exact hl l' hl'

def Exact (k : Kernel) (x : Handle × StateCall × Handle) : Prop :=
  ∀ dev, x.2.1 = .stateOpen dev 0 → ∃ l, k.obtained x.1.1 dev = some l ∧ FlagsMatch x.2.2 l

theorem exact_iff {k : Kernel} {h h' : Handle} {call : StateCall} (hs : StateStep k h call h') :
    Exact k (h,call,h') ↔ ∀ l, gained k (h,call,h') = some l → FlagsMatch h' l := by
  cases call with
  | stateOpen dev ret =>
    rcases open_cases hs with ⟨l,fd,rfl,hl,-⟩ | ⟨fd,rfl,hn,-⟩
    · simp [Exact,gained,hl]
    · simp [Exact,gained,hn]
  | stateClose err => simp [Exact,gained]

theorem flags_describe_last_iff {k : Kernel} {m : Host} {h' : Handle}
    {steps : List (Handle × StateCall × Handle)}
    (hrun : Run (StateStep k) (m,KVMState.init) steps h') :
    (∀ x ∈ steps, Exact k x) ↔ (steps.filterMap (gained k)).Pairwise Covers := by
  have hinit : Accumulated (m,KVMState.init).2 [] := by
    intro slot
    have : flag KVMState.init slot = 0 := flag_init (-1) slot
    simpa using this
  have hflags := run_flags_iff hrun [] hinit
  simp only [List.not_mem_nil,false_implies,implies_true,true_and] at hflags
  rw [← hflags]
  constructor
  · intro he x hx
    exact (exact_iff (hrun.mem_step x hx)).mp (he x hx)
  · intro hm x hx
    exact (exact_iff (hrun.mem_step x hx)).mpr (hm x hx)

def emptyTable : MsrTable := ⟨[],by decide⟩

def swappedKernel : Kernel :=
  { resetKernel with msrIndexList := fun n _ => .ok (if n < 4 then resetTable else emptyTable) }

theorem exists_open {k : Kernel} {h : Handle} {dev : Bytes} {l : List UInt32}
    (hl : k.obtained h.1 dev = some l) (hlen : l.length < 2 ^ 31) :
    ∃ h', StateStep k h (.stateOpen dev 0) h' ∧ h'.1.world.clock = h.1.world.clock + 3 ∧
      h'.2.fd = lowestFree h.1.world.fds := by
  obtain ⟨m₁,hlists,hclock,-⟩ := kernel_lists hl
  exact ⟨(m₁,_),runs_open_lists hlists hlen h.2,hclock,foldl_mark_fd _ _⟩

theorem exists_close {k : Kernel} {h : Handle} (hfd : h.2.fd ≠ -1)
    (hclose : k.closeDev h.1.world.clock h.2.fd = true) :
    ∃ h', StateStep k h (.stateClose 0) h' ∧ h'.1.world.clock = h.1.world.clock + 1 := by
  refine ⟨(h.1.onSys (Sys.closeFd · h.2.fd),{ h.2 with fd := -1 }),?_,rfl⟩
  simp only [StateStep,kvmStateClose,if_pos hfd]
  refine (runs_closeDev hclose).bind ?_
  rw [if_pos rfl]
  exact runs_pure

theorem swapped_obtained {m : Host} {dev : Bytes} (h : m.world.clock = 4) :
    swappedKernel.obtained m dev = some [] := by
  simp [Kernel.obtained,Kernel.query,swappedKernel,resetKernel,emptyTable,h]

theorem swapped_run : ∃ h₁ h₂ h₃ : Handle, h₂.1.world.clock = 4 ∧
    Run (StateStep swappedKernel) (bootHost,.init)
      [((bootHost,.init),.stateOpen (cstr "/dev/kvm") 0,h₁),(h₁,.stateClose 0,h₂),
        (h₂,.stateOpen (cstr "/dev/kvm") 0,h₃)] h₃ := by
  have hfirst : swappedKernel.obtained ((bootHost,KVMState.init) : Handle).1 (cstr "/dev/kvm") =
      some [HV_X64_MSR_RESET] := rfl
  obtain ⟨h₁,hopen,hclock₁,hfd⟩ := exists_open hfirst (by decide)
  obtain ⟨h₂,hclose,hclock₂⟩ := exists_close (k := swappedKernel) (h := h₁) (by omega) rfl
  have hclock : h₂.1.world.clock = 4 := by rw [hclock₂,hclock₁]; rfl
  obtain ⟨h₃,hopen₃,-⟩ := exists_open (swapped_obtained hclock) (by decide)
  exact ⟨h₁,h₂,h₃,hclock,.cons hopen (.cons hclose (.cons hopen₃ (.nil h₃)))⟩

theorem flags_outlive_device :
    ¬∀ (k : Kernel) (m : Host) (h' : Handle) (steps : List (Handle × StateCall × Handle)),
      Run (StateStep k) (m,KVMState.init) steps h' → ∀ x ∈ steps, Exact k x := by
  intro h
  obtain ⟨h₁,h₂,h₃,hclock,hrun⟩ := swapped_run
  have hstep := hrun.mem_step
  simp only [List.forall_mem_cons] at hstep
  obtain ⟨hopen,hclose,hopen₃,-⟩ := hstep
  have hflag₁ : flag h₁.2 KVMINFO_MSR_HV_RESET ≠ 0 :=
    (step_flags hopen _).mpr (Or.inl ⟨[HV_X64_MSR_RESET],rfl,by decide⟩)
  have hflag₂ := (step_flags hclose KVMINFO_MSR_HV_RESET).mpr (Or.inr hflag₁)
  have hflag₃ := (step_flags hopen₃ KVMINFO_MSR_HV_RESET).mpr (Or.inr hflag₂)
  obtain ⟨l,hl,hmatch⟩ := h swappedKernel bootHost h₃ _ hrun _
    (List.mem_cons_of_mem _ (List.mem_cons_of_mem _ (List.mem_singleton.mpr rfl))) _ rfl
  rw [swapped_obtained hclock] at hl
  cases hl
  have := ((flagsMatch_iff h₃ []).mp hmatch KVMINFO_MSR_HV_RESET (by decide) (by decide)).mp hflag₃
  exact absurd this (by decide)

theorem flags_describe_last_swapped : ∃ h₁ h₂ h₃ : Handle,
    Run (StateStep swappedKernel) (bootHost,.init)
      [((bootHost,.init),.stateOpen (cstr "/dev/kvm") 0,h₁),(h₁,.stateClose 0,h₂),
        (h₂,.stateOpen (cstr "/dev/kvm") 0,h₃)] h₃ ∧
      Exact swappedKernel ((bootHost,.init),.stateOpen (cstr "/dev/kvm") 0,h₁) ∧
      ¬∀ x ∈ [((bootHost,.init),.stateOpen (cstr "/dev/kvm") 0,h₁),(h₁,.stateClose 0,h₂),
        (h₂,.stateOpen (cstr "/dev/kvm") 0,h₃)], Exact swappedKernel x := by
  obtain ⟨h₁,h₂,h₃,hclock,hrun⟩ := swapped_run
  have hfirst : Run (StateStep swappedKernel) (bootHost,.init)
      [((bootHost,.init),.stateOpen (cstr "/dev/kvm") 0,h₁)] h₁ :=
    .cons (hrun.mem_step _ List.mem_cons_self) (.nil h₁)
  have hgained : gained swappedKernel ((bootHost,.init),.stateOpen (cstr "/dev/kvm") 0,h₁) =
      some [HV_X64_MSR_RESET] := rfl
  have hgained₃ : gained swappedKernel (h₂,.stateOpen (cstr "/dev/kvm") 0,h₃) = some [] :=
    swapped_obtained hclock
  refine ⟨h₁,h₂,h₃,hrun,?_,fun hexact => ?_⟩
  · refine (flags_describe_last_iff hfirst).mpr ?_ _ (List.mem_singleton_self _)
    rw [List.filterMap_cons_some hgained,List.filterMap_nil]
    exact List.pairwise_singleton _ _
  · have hcovers := (flags_describe_last_iff hrun).mp hexact
    rw [List.filterMap_cons_some hgained,List.filterMap_cons_none rfl,
      List.filterMap_cons_some hgained₃,List.filterMap_nil,List.pairwise_pair] at hcovers
    exact absurd (hcovers KVMINFO_MSR_HV_RESET (by decide)) (by decide)

end Caps
