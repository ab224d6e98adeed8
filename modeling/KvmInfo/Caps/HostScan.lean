import KvmInfo.Caps.KernelIo

namespace Caps
open Exec

def Kernel.obtained (k : Kernel) (m : Host) (dev : Bytes) : Option (List UInt32) :=
  if k.openDev m.world.clock dev then
    k.query (lowestFree m.world.fds) (m.world.clock + 1) m.heap.calls
  else none

def Kernel.Strands (k : Kernel) (m : Host) (dev : Bytes) : Prop :=
  k.openDev m.world.clock dev = true ∧ k.obtained m dev = none

def Host.Holding (m m' : Host) (fd : ℤ) : Prop :=
  m'.world.fds = m.world.openFd.fds ∧ m'.world.trace = m.world.trace ++ [.opened fd] ∧
    m'.emitted = m.emitted

section opening
variable {k : Kernel} {m : Host} {dev : Bytes}

theorem kernel_lists {l : List UInt32} (h : k.obtained m dev = some l) :
    ∃ m', (kernelIo k).Lists dev m (lowestFree m.world.fds) l m' ∧
      m'.world.clock = m.world.clock + 3 ∧ Host.Holding m m' (lowestFree m.world.fds) := by
  rw [Kernel.obtained] at h
  split_ifs at h with hopen
  have hget : k.query (lowestFree m.world.fds) (m.onSys Sys.openFd).world.clock
      (m.onSys Sys.openFd).heap.calls = some l := h
  obtain ⟨m₂,list,block,hrun,hb,hfit,hl,hclock,hfds,htrace,hem⟩ := runs_kvmGetMsrList_some hget
  exact ⟨_,⟨by omega,_,_,list,block,runs_openDev hopen,hrun,hb,hfit,hl,rfl⟩,hclock,hfds,
    htrace,hem⟩

theorem kernel_stranded (h : k.Strands m dev) (s : KVMState) :
    ∃ m', Runs (kvmStateOpen (kernelIo k) (some s) dev) m
      (-1,some { s with fd := lowestFree m.world.fds }) m' ∧
      Host.Holding m m' (lowestFree m.world.fds) := by
  obtain ⟨hopen,hquery⟩ := h
  rw [Kernel.obtained,if_pos hopen] at hquery
  have hget : k.query (lowestFree m.world.fds) (m.onSys Sys.openFd).world.clock
      (m.onSys Sys.openFd).heap.calls = none := hquery
  obtain ⟨m₂,hrun,hfds,htrace,hem⟩ := runs_kvmGetMsrList_none hget
  exact ⟨m₂,runs_open_unlisted (runs_openDev hopen) (by omega) hrun s,hfds,htrace,hem⟩

theorem kernel_refused (h : k.openDev m.world.clock dev = false) (s : KVMState) :
    Runs (kvmStateOpen (kernelIo k) (some s) dev) m (-1,some { s with fd := -1 })
      (m.onSys Sys.tick) :=
  runs_open_refused (runs_openDev_failed h) (by decide) s

theorem obtained_cases (k : Kernel) (m : Host) (dev : Bytes) :
    (∃ l, k.obtained m dev = some l) ∨ k.Strands m dev ∨ k.openDev m.world.clock dev = false := by
  cases h : k.obtained m dev with
  | some l => exact Or.inl ⟨l,rfl⟩
  | none =>
    cases hopen : k.openDev m.world.clock dev with
    | true => exact Or.inr (Or.inl ⟨hopen,h⟩)
    | false => exact Or.inr (Or.inr rfl)

theorem obtained_none_iff : k.obtained m dev = none ↔
    k.Strands m dev ∨ k.openDev m.world.clock dev = false := by
  constructor
  · intro h
    rcases obtained_cases k m dev with ⟨l,hl⟩ | hs | hf
    · simp [h] at hl
    · exact Or.inl hs
    · exact Or.inr hf
  · rintro (h | h)
    · exact h.2
    · simp [Kernel.obtained,h]

end opening

section scanning
variable {k : Kernel} {m : Host} {dev : Bytes} {mode : ℤ}

theorem kernel_serves {fd : ℤ} {A : UInt32 → ℤ → Prop} (m₀ : Host)
    (hA : ∀ n ext r, (r ≠ 0 ↔ 0 < k.checkExtension n fd ext) → A ext r) :
    (kernelIo k).Serves fd A
      (fun m => m.world.fds = m₀.world.fds ∧ m.world.trace = m₀.world.trace) where
  answers m ext hm := by
    obtain ⟨r,hrun,hr⟩ := runs_kvmHasExtension ext
    exact ⟨r,_,hrun,hA _ ext r hr,hm,rfl⟩
  emits m cap hm := hm

theorem kernel_close (k : Kernel) (fd : ℤ) (m : Host) : ∃ err m', Runs (kvmClose k fd) m err m' ∧
    m'.emitted = m.emitted := by
  cases h : k.closeDev m.world.clock fd with
  | true => exact ⟨_,_,runs_closeDev h,rfl⟩
  | false => exact ⟨_,_,runs_closeDev_failed h,rfl⟩

theorem kernel_scan_labels {answer : UInt32 → ℤ} {l : List UInt32}
    (hk : ∀ n fd ext, 0 < k.checkExtension n fd ext ↔ 0 < answer ext)
    (h : k.obtained m dev = some l) (hl : l.length < 2 ^ 31) :
    ∃ m', Runs (kvmStateScan (kernelIo k) dev mode) m 0 m' ∧
      m'.emitted = m.emitted ++ labels l answer mode := by
  obtain ⟨m₁,hlists,-,-,-,hem⟩ := kernel_lists h
  have hserves := kernel_serves (A := fun ext r => r ≠ 0 ↔ 0 < answer ext) m₁
    (fun n ext r hr => hr.trans (hk n (lowestFree m.world.fds) ext))
  rw [← hem]
  exact Io.scan_labels mode hlists hl hserves ⟨rfl,rfl⟩ (fun m _ => kernel_close k _ m)

theorem kernel_scan_silent (h : k.obtained m dev = none) :
    ∃ m', Runs (kvmStateScan (kernelIo k) dev mode) m 0 m' ∧ m'.emitted = m.emitted := by
  rcases obtained_none_iff.mp h with hs | hf
  · obtain ⟨m',hopen,-,-,hem⟩ := kernel_stranded hs .init
    exact ⟨m',runs_scan_unopened hopen (by decide),hem⟩
  · exact ⟨_,runs_scan_unopened (kernel_refused hf .init) (by decide),rfl⟩

theorem activeCaps_labels_nodup : (activeCaps.map featureLabel).Nodup := by decide

theorem kernel_scan_exact {answer : UInt32 → ℤ}
    (hk : ∀ n fd ext, k.checkExtension n fd ext = answer ext) (m : Host) (dev : Bytes) :
    (∀ l mode, k.obtained m dev = some l → l.length < 2 ^ 31 →
      ∃ m', Runs (kvmStateScan (kernelIo k) dev mode) m 0 m' ∧
        m'.emitted = m.emitted ++
          if mode = KVM_INFO_SHOW_FEATURES then
            (activeCaps.filter (fun cap => Enabled l answer cap)).map featureLabel
          else if mode = KVM_INFO_SHOW_MISSING then
            (activeCaps.filter (fun cap => ¬Enabled l answer cap)).map missingLabel
          else []) ∧
    (∀ mode, k.obtained m dev = none →
      ∃ m', Runs (kvmStateScan (kernelIo k) dev mode) m 0 m' ∧ m'.emitted = m.emitted) ∧
    (∀ l, ∃ shown missing : List CapDesc, labels l answer KVM_INFO_SHOW_FEATURES =
        shown.map featureLabel ∧
      labels l answer KVM_INFO_SHOW_MISSING = missing.map missingLabel ∧
      (shown.map featureLabel ++ missing.map featureLabel).Perm (activeCaps.map featureLabel) ∧
      (shown.map featureLabel ++ missing.map featureLabel).Nodup) := by
  refine ⟨fun l mode h hl => kernel_scan_labels (fun n fd ext => by rw [hk]) h hl,fun mode h => kernel_scan_silent h,?_⟩
  intro l
  obtain ⟨shown,missing,hperm,-,hs,hm⟩ := labels_partition l answer
  have hmap := hperm.map featureLabel
  rw [List.map_append] at hmap
  exact ⟨shown,missing,hs,hm,hmap,hmap.nodup_iff.mpr activeCaps_labels_nodup⟩

end scanning

def resetTable : MsrTable := ⟨[HV_X64_MSR_RESET],by decide⟩

def baseAnswer (extension : UInt32) : ℤ := if extension = KVM_CAP_HYPERV then 1 else -1

def EINVAL : Errno := ⟨22,by decide⟩

def resetKernel : Kernel where
  openDev _ _ := true
  closeDev _ _ := true
  msrIndexList _ _ := .ok resetTable
  checkExtension _ _ := baseAnswer
  errno _ := EINVAL
  calloc _ := true

def bootHost : Host := ⟨⟨0,∅,[]⟩,⟨fun _ => none,0,0⟩,[]⟩

theorem bootHost_obtained (dev : Bytes) : resetKernel.obtained bootHost dev = some [HV_X64_MSR_RESET] := rfl

theorem kernel_scan_exact_reset :
    (∃ m', Runs (kvmStateScan (kernelIo resetKernel) (cstr "/dev/kvm") KVM_INFO_SHOW_FEATURES) bootHost
        0 m' ∧
      m'.emitted =
        [cstr "/kvm-info-cap-hyperv-base\n",cstr "/kvm-info-cap-hyperv-reset\n"]) ∧
    ∃ m', Runs (kvmStateScan (kernelIo resetKernel) (cstr "/dev/kvm") KVM_INFO_SHOW_MISSING) bootHost
        0 m' ∧
      m'.emitted =
        [cstr "/kvm-info-cap-hyperv-time=false\n",cstr "/kvm-info-cap-hyperv-vpindex=false\n",
          cstr "/kvm-info-cap-hyperv-tlbflush=false\n",cstr "/kvm-info-cap-hyperv-ipi=false\n",
          cstr "/kvm-info-cap-hyperv-synic=false\n",cstr "/kvm-info-cap-hyperv-synic2=false\n",
          cstr "/kvm-info-cap-hyperv-frequencies=false\n",
          cstr "/kvm-info-cap-hyperv-runtime=false\n",
          cstr "/kvm-info-cap-hyperv-synictimer=false\n",
          cstr "/kvm-info-cap-hyperv-reenlightenment=false\n"] := by
  have hscan := (kernel_scan_exact (k := resetKernel) (fun _ _ _ => rfl) bootHost
    (cstr "/dev/kvm")).1
  obtain ⟨m₁,hrun₁,hem₁⟩ := hscan _ KVM_INFO_SHOW_FEATURES (bootHost_obtained _) (by decide)
  obtain ⟨m₂,hrun₂,hem₂⟩ := hscan _ KVM_INFO_SHOW_MISSING (bootHost_obtained _) (by decide)
  exact ⟨⟨m₁,hrun₁,hem₁.trans (by decide +kernel)⟩,m₂,hrun₂,hem₂.trans (by decide +kernel)⟩

end Caps
