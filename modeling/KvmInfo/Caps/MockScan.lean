import KvmInfo.Caps.MockIo

namespace Caps
open Exec

structure Kernel.Provides (k : Kernel) (dev : Bytes) (exts msrs : List UInt32) : Prop where
  opens : ∀ n, k.openDev n dev = true
  lists : ∀ n fd, ∃ table, k.msrIndexList n fd = .ok table ∧ table.val = msrs
  grants : ∀ n fd ext, 0 < k.checkExtension n fd ext ↔ ext ∈ exts
  allocates : ∀ n, k.calloc n = true

structure Mock.Provides (mock : Mock) (dev : Bytes) (exts msrs : List UInt32) : Prop where
  parses : ∃ src tab, mock.fopen dev = some src ∧ mock.tomlParseFile src = some tab ∧
    tab.Lists mock.tomlRtoi (cstr "exts") exts ∧ tab.Lists mock.tomlRtoi (cstr "msrs") msrs
  allocates : ∀ n, mock.calloc n = true

def grantedOf (exts : List UInt32) (extension : UInt32) : ℤ := if extension ∈ exts then 1 else 0

theorem grantedOf_pos (exts : List UInt32) (extension : UInt32) :
    0 < grantedOf exts extension ↔ extension ∈ exts := by
  rw [grantedOf]
  split_ifs with h <;> simp [h]

section scans
variable {k : Kernel} {mock : Mock} {dev file : Bytes} {exts msrs : List UInt32} {mode : ℤ}

theorem kernel_provides_obtained (h : k.Provides dev exts msrs) (m : Host) :
    k.obtained m dev = some msrs := by
  obtain ⟨first,hfirst,rfl⟩ := h.lists (m.world.clock + 1) (lowestFree m.world.fds)
  obtain ⟨second,hsecond,heq⟩ := h.lists (m.world.clock + 1 + 1) (lowestFree m.world.fds)
  rw [Kernel.obtained,if_pos (h.opens _),Kernel.query,hfirst]
  simp [h.allocates,hsecond,heq]

theorem kernel_provides_scan (h : k.Provides dev exts msrs) (hmsrs : msrs.length < 2 ^ 31)
    (m : Host) :
    ∃ m', Runs (kvmStateScan (kernelIo k) dev mode) m 0 m' ∧
      m'.emitted = m.emitted ++ labels msrs (grantedOf exts) mode :=
  kernel_scan_labels (fun n fd ext => (h.grants n fd ext).trans (grantedOf_pos exts ext).symm)
    (kernel_provides_obtained h m) hmsrs

theorem mock_lists {m : Fake} {src : Bytes} {tab : TomlTable} (hfree : 0 ≤ findFirstFree m.world)
    (hsrc : mock.fopen file = some src) (htab : mock.tomlParseFile src = some tab)
    (hlist : tab.Lists mock.tomlRtoi (cstr "msrs") msrs) (hmsrs : msrs.length < 2 ^ 31)
    (hcalloc : mock.calloc m.heap.calls = true) :
    ∃ m', mock.io.Lists file m (findFirstFree m.world) msrs m' ∧
      Fake.Backs m' (findFirstFree m.world) tab ∧ m'.emitted = m.emitted := by
  obtain ⟨m₁,hopen,hbacks,hheap,hem₁⟩ := runs_mockOpen hfree hsrc htab
  rw [← hheap] at hcalloc
  obtain ⟨m₂,list,block,hget,hb,hfit,hxs,hworld,hem₂⟩ :=
    runs_mockGetMsrList hbacks hlist hmsrs hcalloc
  refine ⟨_,⟨hfree,m₁,m₂,list,block,hopen,hget,hb,hfit,hxs,rfl⟩,⟨hfree,?_⟩,hem₂.trans hem₁⟩
  rw [withHeap_world,hworld]
  exact hbacks.2

theorem mock_serves {fd : ℤ} {tab : TomlTable}
    (hlist : tab.Lists mock.tomlRtoi (cstr "exts") exts) (hexts : exts.length < 2 ^ 31) :
    mock.io.Serves fd (fun ext r => r ≠ 0 ↔ 0 < grantedOf exts ext)
      (fun m => Fake.Backs m fd tab) where
  answers m ext hm := by
    obtain ⟨r,hr,hmem⟩ := runs_mockHasExtension hm hlist hexts ext
    exact ⟨r,m,hr,hmem.trans (grantedOf_pos exts ext).symm,hm,rfl⟩
  emits m cap hm := hm

theorem mock_provides_scan (h : mock.Provides file exts msrs) (hexts : exts.length < 2 ^ 31)
    (hmsrs : msrs.length < 2 ^ 31) {m : Fake} (hfree : 0 ≤ findFirstFree m.world) :
    ∃ m', Runs (kvmStateScan mock.io file mode) m 0 m' ∧
      m'.emitted = m.emitted ++ labels msrs (grantedOf exts) mode := by
  obtain ⟨src,tab,hsrc,htab,htomlExts,htomlMsrs⟩ := h.parses
  obtain ⟨m₁,hlists,hbacks,hem⟩ := mock_lists hfree hsrc htab htomlMsrs hmsrs (h.allocates _)
  rw [← hem]
  exact Io.scan_labels mode hlists hmsrs (mock_serves htomlExts hexts) hbacks
    (fun m hm => runs_mockClose hm)

theorem mock_scan_faithful (hk : k.Provides dev exts msrs) (hmock : mock.Provides file exts msrs)
    (hexts : exts.length < 2 ^ 31) (hmsrs : msrs.length < 2 ^ 31) (m : Host) (fake : Fake)
    (hfree : 0 ≤ findFirstFree fake.world) (mode : ℤ) :
    ∃ (m' : Host) (fake' : Fake),
      Runs (kvmStateScan (kernelIo k) dev mode) m 0 m' ∧
        m'.emitted = m.emitted ++ labels msrs (grantedOf exts) mode ∧
      Runs (kvmStateScan mock.io file mode) fake 0 fake' ∧
        fake'.emitted = fake.emitted ++ labels msrs (grantedOf exts) mode := by
  obtain ⟨m',hrun,hem⟩ := kernel_provides_scan hk hmsrs m
  obtain ⟨fake',hrun',hem'⟩ := mock_provides_scan hmock hexts hmsrs hfree
  exact ⟨m',fake',hrun,hem,hrun',hem'⟩

end scans

def decimalByte (b : UInt8) : Bool := 48 ≤ b && b ≤ 57

def decimalRtoi (raw : Bytes) : Option ℤ :=
  if raw ≠ [] ∧ raw.all decimalByte then
    some (raw.foldl (fun acc b => 10 * acc + (b.toNat - 48)) 0)
  else none

def resetToml : Bytes := cstr "exts = [44]\nmsrs = [1073741827]\n"

def resetTab : TomlTable :=
  [(cstr "exts",⟨kindValue,1,[cstr "44"]⟩),(cstr "msrs",⟨kindValue,1,[cstr "1073741827"]⟩)]

def resetMock : Mock where
  fopen _ := some resetToml
  tomlParseFile src := if src = resetToml then some resetTab else none
  tomlRtoi := decimalRtoi
  calloc _ := true

def emptyFake : Fake := ⟨Vector.replicate _ none,⟨fun _ => none,0,0⟩,[]⟩

theorem resetKernel_provides (dev : Bytes) :
    resetKernel.Provides dev [KVM_CAP_HYPERV] [HV_X64_MSR_RESET] where
  opens _ := rfl
  lists _ _ := ⟨resetTable,rfl,rfl⟩
  grants n fd ext := by
    change 0 < baseAnswer ext ↔ _
    rw [baseAnswer,List.mem_singleton]
    split_ifs with h <;> simp [h]
  allocates _ := rfl

theorem resetMock_provides (file : Bytes) :
    resetMock.Provides file [KVM_CAP_HYPERV] [HV_X64_MSR_RESET] where
  parses := by
    refine ⟨resetToml,resetTab,rfl,?_,⟨Or.inl rfl,rfl,?_⟩,⟨Or.inl rfl,rfl,?_⟩⟩
    · simp [resetMock]
    · decide
    · decide
  allocates _ := rfl

theorem mock_scan_faithful_reset :
    ∃ (m' : Host) (fake' : Fake),
      Runs (kvmStateScan (kernelIo resetKernel) (cstr "/dev/kvm") KVM_INFO_SHOW_FEATURES) bootHost
        0 m' ∧
      m'.emitted = [cstr "/kvm-info-cap-hyperv-base\n",cstr "/kvm-info-cap-hyperv-reset\n"] ∧
      Runs (kvmStateScan resetMock.io (cstr "kvm.toml") KVM_INFO_SHOW_FEATURES) emptyFake 0 fake' ∧
      fake'.emitted = [cstr "/kvm-info-cap-hyperv-base\n",cstr "/kvm-info-cap-hyperv-reset\n"] := by
  obtain ⟨m',fake',hrun,hem,hrun',hem'⟩ := mock_scan_faithful (resetKernel_provides _)
    (resetMock_provides _) (by decide) (by decide) bootHost emptyFake (by decide)
    KVM_INFO_SHOW_FEATURES
  exact ⟨m',fake',hrun,hem.trans (by decide +kernel),hrun',hem'.trans (by decide +kernel)⟩

end Caps
