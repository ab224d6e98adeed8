import KvmInfo.Caps.Accesses
import KvmInfo.Caps.FlagRuns

namespace Caps
open Exec Tracing

def IsSlot (msr : ℕ) : Prop := KVMINFO_MSR_HV_CRASH ≤ msr ∧ msr < KVMINFO_MSR_HV_NUM

def Access.InBounds : Access → Prop
  | .flag slot => slot < KVMINFO_MSR_HV_NUM
  | _ => True

section accesses
variable {W : Type}

theorem allocMsrList_inBounds (k : Kernel) (nmsrs : UInt32) :
    Records (tracedAllocMsrList k nmsrs) Access.InBounds := by
  refine records_after (fun p => ?_)
  cases p with
  | none => exact records_pure none
  | some p => exact records_record (x := Access.allocated p _) trivial (records_pure _)

theorem fillMsrList_inBounds (k : Kernel) (fd : ℤ) (list : Ptr) :
    Records (tracedFillMsrList k fd list) Access.InBounds := by
  refine records_after (fun block => records_after (fun m => ?_))
  refine records_record (x := Access.filled list _) trivial (records_after (fun r => ?_))
  refine records_after (fun _ => ?_)
  split_ifs
  · exact records_record (x := Access.freed list) trivial (records_after (fun _ => records_pure _))
  · exact records_pure _

theorem getMsrList_inBounds (k : Kernel) (fd : ℤ) :
    Records (tracedGetMsrList k fd) Access.InBounds := by
  refine records_after (fun r => ?_)
  dsimp only
  split_ifs
  · exact records_pure none
  · refine (allocMsrList_inBounds k _).bind (fun list => ?_)
    cases list with
    | none => exact records_pure none
    | some list => exact fillMsrList_inBounds k fd list

theorem getSupportedMSRs_inBounds (k : Kernel) (s : KVMState) :
    Records (tracedGetSupportedMSRs k s) Access.InBounds := by
  refine (getMsrList_inBounds k s.fd).bind (fun list => ?_)
  cases list with
  | none => exact records_pure _
  | some list =>
    refine (msrLoop_records (fun _ => trivial) (fun _ h => h) loopFuel 0 s).bind (fun s => ?_)
    exact records_record (x := Access.freed list) trivial (records_after (fun _ => records_pure _))

theorem hasEnabledMSR_log (s : KVMState) (msr : UInt32) (m : Machine W) :
    (tracedHasEnabledMSR (some s) msr m).1 =
      if msr.toNat > KVMINFO_MSR_HV_NUM then [] else [.flag msr.toNat] := by
  simp only [tracedHasEnabledMSR]
  split_ifs <;> rfl

theorem hasEnabledMSR_yields {msr : UInt32} (hne : msr.toNat ≠ KVMINFO_MSR_HV_NUM) (s : KVMState)
    (m : Machine W) :
    ∃ log r, Runs (kvmStateHasEnabledMSR (some s) msr) m r m ∧
      Yields (tracedHasEnabledMSR (some s) msr) m log r m ∧
      ∀ slot, .flag slot ∈ log → slot < KVMINFO_MSR_HV_NUM := by
  have hrun : ∃ r, Runs (kvmStateHasEnabledMSR (some s) msr) m r m := by
    rcases lt_or_gt_of_ne hne with hlt | hgt
    · exact ⟨_,runs_hasEnabledMSR hlt⟩
    · simp only [kvmStateHasEnabledMSR,if_pos hgt]
      exact ⟨0,runs_pure⟩
  obtain ⟨r,hrun⟩ := hrun
  refine ⟨_,r,hrun,yields_of_runs hrun (erase_hasEnabledMSR _ _),fun slot hslot => ?_⟩
  rw [hasEnabledMSR_log] at hslot
  split_ifs at hslot with hgt
  · simp at hslot
  · simp only [List.mem_singleton,Access.flag.injEq] at hslot
    omega

theorem hasEnabledMSR_none {s : KVMState} {msr : UInt32} {m : Machine W}
    (hdummy : flag s KVMINFO_MSR_HV_DUMMY = 0) (hmsr : ¬IsSlot msr.toNat)
    (hne : msr.toNat ≠ KVMINFO_MSR_HV_NUM) :
    Runs (kvmStateHasEnabledMSR (some s) msr) m 0 m := by
  rcases lt_or_gt_of_ne hne with hlt | hgt
  · have hzero : msr.toNat = KVMINFO_MSR_HV_DUMMY := by
      by_contra h
      exact hmsr ⟨Nat.one_le_iff_ne_zero.mpr h,hlt⟩
    have hrun := runs_hasEnabledMSR (m := m) (s := s) hlt
    rwa [hzero,hdummy] at hrun
  · simp only [kvmStateHasEnabledMSR,if_pos hgt]
    exact runs_pure

end accesses

theorem dummy_not_listed (l : List UInt32) : ¬Listed KVMINFO_MSR_HV_DUMMY l := by
  intro h
  exact absurd (listed_slot h).1 (by decide)

theorem run_dummy_clear {k : Kernel} {m : Host} {h : Handle}
    {steps : List (Handle × StateCall × Handle)}
    (hrun : Run (StateStep k) (m,KVMState.init) steps h) : flag h.2 KVMINFO_MSR_HV_DUMMY = 0 := by
  apply hrun.invariant (I := fun h => flag h.2 KVMINFO_MSR_HV_DUMMY = 0) (flag_init (-1) _)
  intro x hx hzero
  by_contra hne
  rcases (step_flags (hrun.mem_step x hx) _).mp hne with ⟨l,-,hl⟩ | hne
  · exact dummy_not_listed l hl
  · exact hne hzero

theorem flag_lookups_iff {k : Kernel} {m : Host} {h : Handle}
    {steps : List (Handle × StateCall × Handle)}
    (hrun : Run (StateStep k) (m,KVMState.init) steps h) (msr : UInt32) :
    ((∀ s m₁, ∃ log, tracedGetSupportedMSRs k s m₁ =
          (log,kvmGetSupportedMSRs (kernelIo k) s m₁) ∧
        ∀ slot, .flag slot ∈ log → slot < KVMINFO_MSR_HV_NUM) ∧
      (∃ log r, Runs (kvmStateHasEnabledMSR (some h.2) msr) h.1 r h.1 ∧
        Yields (tracedHasEnabledMSR (some h.2) msr) h.1 log r h.1 ∧
        ∀ slot, .flag slot ∈ log → slot < KVMINFO_MSR_HV_NUM) ∧
      (¬IsSlot msr.toNat → Runs (kvmStateHasEnabledMSR (some h.2) msr) h.1 0 h.1)) ↔
      msr.toNat ≠ KVMINFO_MSR_HV_NUM := by
  constructor
  · rintro ⟨-,⟨log,r,-,hyields,hlookup⟩,-⟩ heq
    have hlog := hyields.log_eq
    rw [hasEnabledMSR_log,heq,if_neg (lt_irrefl _)] at hlog
    have hlt := hlookup KVMINFO_MSR_HV_NUM (by rw [← hlog]; exact List.mem_singleton_self _)
    omega
  · intro hne
    refine ⟨fun s m₁ => ?_,hasEnabledMSR_yields hne h.2 h.1,
      fun hmsr => hasEnabledMSR_none (run_dummy_clear hrun) hmsr hne⟩
    refine ⟨_,erased_eq (erase_getSupportedMSRs k s) m₁,fun slot hslot => ?_⟩
    exact getSupportedMSRs_inBounds k s m₁ _ hslot

def resetOpen : StateCall := .stateOpen (cstr "/dev/kvm") 0

theorem reset_open_run : ∃ h, Run (StateStep resetKernel) (bootHost,.init)
    [((bootHost,.init),resetOpen,h)] h := by
  obtain ⟨h,hopen,-⟩ := exists_open (k := resetKernel) (h := (bootHost,.init))
    (bootHost_obtained (cstr "/dev/kvm")) (by decide)
  exact ⟨h,.cons hopen (.nil h)⟩

theorem flag_lookups_dummy : ∃ h : Handle,
    Run (StateStep resetKernel) (bootHost,.init) [((bootHost,.init),resetOpen,h)] h ∧
      Runs (kvmStateHasEnabledMSR (some h.2) 0) h.1 0 h.1 := by
  obtain ⟨h,hrun⟩ := reset_open_run
  exact ⟨h,hrun,((flag_lookups_iff hrun 0).mpr (by decide)).2.2 (fun hs => absurd hs.1 (by decide))⟩

theorem flag_lookup_past_end :
    ¬∀ (k : Kernel) (m : Host) (h : Handle) (steps : List (Handle × StateCall × Handle))
      (msr : UInt32), Run (StateStep k) (m,KVMState.init) steps h →
      ∀ slot, .flag slot ∈ (tracedHasEnabledMSR (some h.2) msr h.1).1 → slot < KVMINFO_MSR_HV_NUM := by
  intro hall
  obtain ⟨h,hrun⟩ := reset_open_run
  have := hall _ _ h _ 9 hrun 9 (by rw [hasEnabledMSR_log]; decide)
  exact absurd this (by decide)

end Caps
