import KvmInfo.Caps.HostScan

namespace Caps
open Exec

def Host.Released (m m' : Host) : Prop :=
  m'.world.fds = m.world.fds ∧ ∃ events, m'.world.trace = m.world.trace ++ events ∧
    ∀ fd, FdEvent.opened fd ∈ events → events.count (.closed fd) = 1

def ScanStep (k : Kernel) (m : Host) (call : Bytes × ℤ) (m' : Host) : Prop :=
  ∃ ret, Runs (kvmStateScan (kernelIo k) call.1 call.2) m ret m'

section scan
variable {k : Kernel} {m m' : Host} {dev : Bytes} {mode : ℤ}

theorem holding_not_released {fd : ℤ} (h : Host.Holding m m' fd) : ¬Host.Released m m' := by
  rintro ⟨-,events,htrace,hclosed⟩
  have hev : events = [FdEvent.opened fd] := List.append_cancel_left (htrace.symm.trans h.2.1)
  have := hclosed fd (by simp [hev])
  simp [hev] at this

theorem closeFd_released {m₁ : Host} (h₁ : m₁.world.fds = m.world.openFd.fds)
    (htrace : m₁.world.trace = m.world.trace ++ [.opened (lowestFree m.world.fds)]) :
    Host.Released m (m₁.onSys (Sys.closeFd · (lowestFree m.world.fds))) := by
  constructor
  · change m₁.world.fds.erase (Int.toNat (lowestFree m.world.fds)) = m.world.fds
    rw [h₁,Int.toNat_natCast]
    exact Finset.erase_insert (lowestFree_notMem _)
  · refine ⟨[.opened (lowestFree m.world.fds),.closed (lowestFree m.world.fds)],?_,?_⟩
    · change m₁.world.trace ++ [FdEvent.closed (lowestFree m.world.fds)] = _
      rw [htrace,List.append_assoc]
      rfl
    · intro fd hfd
      have : fd = lowestFree m.world.fds := by simpa using hfd
      simp [this]

theorem scan_lists_released (hclose : ∀ n fd, k.closeDev n fd = true) {l : List UInt32}
    (h : k.obtained m dev = some l) (hl : l.length < 2 ^ 31) :
    ∃ m', Runs (kvmStateScan (kernelIo k) dev mode) m 0 m' ∧ Host.Released m m' := by
  obtain ⟨m₁,hlists,-,hfds,htrace,-⟩ := kernel_lists h
  have hserves : (kernelIo k).Serves (openedState (lowestFree m.world.fds) l).fd
      (fun _ _ => True) _ :=
    kernel_serves m₁ (fun _ _ _ _ => trivial)
  apply Io.scan_rule hlists hl (hserves.loop mode (suffixOf mode) ⟨rfl,rfl⟩)
  rintro m₂ ⟨hfds₂,htrace₂⟩
  exact ⟨0,_,runs_closeDev (hclose _ _),closeFd_released (hfds₂.trans hfds) (htrace₂.trans htrace)⟩

theorem scanStep_released_iff (hclose : ∀ n fd, k.closeDev n fd = true)
    (h : ScanStep k m (dev,mode) m') : Host.Released m m' ↔ ¬k.Strands m dev := by
  obtain ⟨ret,hrun⟩ := h
  rcases obtained_cases k m dev with ⟨l,hl⟩ | hs | hf
  · have hno : ¬k.Strands m dev := fun hs => by simp [hs.2] at hl
    by_cases hlen : l.length < 2 ^ 31
    · obtain ⟨m₁,hrun₁,hrel⟩ := scan_lists_released hclose hl hlen
      rw [(hrun.functional hrun₁).2]
      exact iff_of_true hrel hno
    · obtain ⟨m₁,hlists,-⟩ := kernel_lists hl
      have hfault := faults_open_lists hlists (not_lt.mp hlen) .init
      exact absurd hfault.bind hrun.not_faults
  · obtain ⟨m₁,hopen,hhold⟩ := kernel_stranded hs .init
    rw [(hrun.functional (runs_scan_unopened hopen (by decide))).2]
    exact iff_of_false (holding_not_released hhold) (not_not.mpr hs)
  · have hno : ¬k.Strands m dev := fun hs => by simp [hs.1] at hf
    rw [(hrun.functional (runs_scan_unopened (kernel_refused hf .init) (by decide))).2]
    exact iff_of_true ⟨rfl,[],by simp [Machine.onSys,Sys.tick],by simp⟩ hno

end scan

theorem scans_released_iff {k : Kernel} (hclose : ∀ n fd, k.closeDev n fd = true) {m m' : Host}
    {steps : List (Host × (Bytes × ℤ) × Host)} (h : Run (ScanStep k) m steps m') :
    ((∀ x ∈ steps, Host.Released x.1 x.2.2) ↔ ∀ x ∈ steps, ¬k.Strands x.1 x.2.1.1) ∧
      ((∀ x ∈ steps, ¬k.Strands x.1 x.2.1.1) → m'.world.fds = m.world.fds) := by
  have hstep := h.mem_step
  constructor
  · constructor
    · intro hr x hx
      exact (scanStep_released_iff hclose (hstep x hx)).mp (hr x hx)
    · intro hs x hx
      exact (scanStep_released_iff hclose (hstep x hx)).mpr (hs x hx)
  · intro hs
    apply h.invariant (I := fun m₁ => m₁.world.fds = m.world.fds) rfl
    intro x hx hfds
    exact ((scanStep_released_iff hclose (hstep x hx)).mpr (hs x hx)).1.trans hfds

def resetCall : Bytes × ℤ := (cstr "/dev/kvm",KVM_INFO_SHOW_FEATURES)

theorem reset_scan_run : ∃ m', Run (ScanStep resetKernel) bootHost [(bootHost,resetCall,m')] m' := by
  have hscan : ∃ m', Runs (kvmStateScan (kernelIo resetKernel) resetCall.1 resetCall.2) bootHost 0 m' ∧
      Host.Released bootHost m' :=
    scan_lists_released (fun _ _ => rfl) (bootHost_obtained _) (by decide)
  obtain ⟨m',hrun,-⟩ := hscan
  exact ⟨m',.cons ⟨0,hrun⟩ (.nil m')⟩

theorem scans_released_reset :
    ∃ m', Run (ScanStep resetKernel) bootHost [(bootHost,resetCall,m')] m' ∧ m'.world.fds = ∅ := by
  obtain ⟨m',hrun⟩ := reset_scan_run
  refine ⟨m',hrun,(scans_released_iff (fun _ _ => rfl) hrun).2 ?_⟩
  intro x hx
  rw [List.mem_singleton.mp hx]
  rintro ⟨-,h⟩
  simp [bootHost_obtained] at h

def busyKernel : Kernel := { resetKernel with msrIndexList := fun _ _ => .error EINVAL }

theorem scan_leaks :
    ¬∀ (k : Kernel) (m m' : Host) (steps : List (Host × (Bytes × ℤ) × Host)),
      (∀ n fd, k.closeDev n fd = true) → Run (ScanStep k) m steps m' →
      ∀ x ∈ steps, Host.Released x.1 x.2.2 := by
  intro h
  have hstrands : busyKernel.Strands bootHost resetCall.1 := ⟨rfl,rfl⟩
  obtain ⟨m',hopen,hhold⟩ := kernel_stranded hstrands .init
  have hscan : ScanStep busyKernel bootHost resetCall m' :=
    ⟨0,runs_scan_unopened hopen (by decide)⟩
  exact holding_not_released hhold (h busyKernel bootHost m' _ (fun _ _ => rfl)
    (.cons hscan (.nil m')) _ (List.mem_singleton.mpr rfl))

end Caps
