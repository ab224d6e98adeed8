import KvmInfo.Caps.Memory

namespace Caps
open Exec

def HV_X64_MSR_CRASH_CTL : UInt32 := 0x40000105
def HV_X64_MSR_RESET : UInt32 := 0x40000003
def HV_X64_MSR_VP_INDEX : UInt32 := 0x40000002
def HV_X64_MSR_VP_RUNTIME : UInt32 := 0x40000010
def HV_X64_MSR_SCONTROL : UInt32 := 0x40000080
def HV_X64_MSR_STIMER0_CONFIG : UInt32 := 0x400000B0
def HV_X64_MSR_TSC_FREQUENCY : UInt32 := 0x40000022
def HV_X64_MSR_REENLIGHTENMENT_CONTROL : UInt32 := 0x40000106

def KVM_CAP_HYPERV : UInt32 := 44
def KVM_CAP_HYPERV_TIME : UInt32 := 96
def KVM_CAP_HYPERV_SYNIC : UInt32 := 123
def KVM_CAP_HYPERV_SYNIC2 : UInt32 := 148
def KVM_CAP_HYPERV_VP_INDEX : UInt32 := 149
def KVM_CAP_HYPERV_TLBFLUSH : UInt32 := 155
def KVM_CAP_HYPERV_SEND_IPI : UInt32 := 161

def KVMINFO_MSR_HV_DUMMY : ℕ := 0
def KVMINFO_MSR_HV_CRASH : ℕ := 1
def KVMINFO_MSR_HV_RESET : ℕ := 2
def KVMINFO_MSR_HV_VPINDEX : ℕ := 3
def KVMINFO_MSR_HV_RUNTIME : ℕ := 4
def KVMINFO_MSR_HV_SYNIC : ℕ := 5
def KVMINFO_MSR_HV_STIMER : ℕ := 6
def KVMINFO_MSR_HV_FREQUENCIES : ℕ := 7
def KVMINFO_MSR_HV_REENLIGHTENMENT : ℕ := 8
def KVMINFO_MSR_HV_NUM : ℕ := 9

def KVM_INFO_SHOW_FEATURES : ℤ := 0
def KVM_INFO_SHOW_MISSING : ℤ := 1

structure KVMState where
  fd : ℤ
  msrs : Vector ℤ KVMINFO_MSR_HV_NUM
  deriving DecidableEq

def KVMState.init : KVMState := ⟨-1,Vector.replicate _ 0⟩

structure Io (W : Type) where
  kvmOpen : Bytes → C W ℤ
  kvmClose : ℤ → C W ℤ
  kvmHasExtension : ℤ → UInt32 → C W ℤ
  kvmGetMsrList : ℤ → C W (Option Ptr)

def storeMsr {W : Type} (s : KVMState) (slot : ℕ) : C W KVMState :=
  if h : slot < KVMINFO_MSR_HV_NUM then pure { s with msrs := s.msrs.set slot 1 h }
  else throw .outOfBounds

def msrSlot (index : UInt32) : Option ℕ :=
  if index = HV_X64_MSR_CRASH_CTL then some KVMINFO_MSR_HV_CRASH
  else if index = HV_X64_MSR_RESET then some KVMINFO_MSR_HV_RESET
  else if index = HV_X64_MSR_VP_INDEX then some KVMINFO_MSR_HV_VPINDEX
  else if index = HV_X64_MSR_VP_RUNTIME then some KVMINFO_MSR_HV_RUNTIME
  else if index = HV_X64_MSR_SCONTROL then some KVMINFO_MSR_HV_SYNIC
  else if index = HV_X64_MSR_STIMER0_CONFIG then some KVMINFO_MSR_HV_STIMER
  else if index = HV_X64_MSR_TSC_FREQUENCY then some KVMINFO_MSR_HV_FREQUENCIES
  else if index = HV_X64_MSR_REENLIGHTENMENT_CONTROL then some KVMINFO_MSR_HV_REENLIGHTENMENT
  else none

def toUnsigned (i : ℤ) : ℕ := (i % 2 ^ 32).toNat

section source
variable {W : Type}

def switchMsr (s : KVMState) (index : UInt32) : C W KVMState :=
  match msrSlot index with
  | some slot => storeMsr s slot
  | none => pure s

def msrLoop (list : Ptr) : ℕ → ℤ → KVMState → C W KVMState
  | 0, _, _ => throw .outOfFuel
  | fuel + 1, i, s => do
      let block ← load list
      if toUnsigned i < block.nmsrs.toNat then
        let index ← readIndex block.indices i
        let s ← switchMsr s index
        let i ← incInt i
        msrLoop list fuel i s
      else return s

-- An int counter takes 2 ^ 31 values from 0 on, so the fuel never runs out.
def loopFuel : ℕ := 2 ^ 31

def kvmGetSupportedMSRs (io : Io W) (s : KVMState) : C W (ℤ × KVMState) := do
  match ← io.kvmGetMsrList s.fd with
  | none => return (-1,s)
  | some list =>
      let s ← msrLoop list loopFuel 0 s
      free list
      return (0,s)

def kvmStateOpen (io : Io W) (s : Option KVMState) (devkvm : Bytes) : C W (ℤ × Option KVMState) :=
  match s with
  | none => return (-1,none)
  | some s => do
      let fd ← io.kvmOpen devkvm
      if fd < 0 then return (-1,some { s with fd := fd })
      else
        let (ret,s) ← kvmGetSupportedMSRs io { s with fd := fd }
        return (ret,some s)

def kvmStateClose (io : Io W) (s : Option KVMState) : C W (ℤ × Option KVMState) :=
  match s with
  | none => return (-1,none)
  | some s =>
      if s.fd ≠ -1 then do
        let err ← io.kvmClose s.fd
        if err = 0 then return (err,some { s with fd := -1 })
        else return (err,some s)
      else return (0,some s)

def kvmStateHasEnabledMSR (s : Option KVMState) (msr : UInt32) : C W ℤ :=
  match s with
  | none => return 0
  | some s =>
      if msr.toNat > KVMINFO_MSR_HV_NUM then return 0
      else
        match s.msrs[msr.toNat]? with
        | none => throw .outOfBounds
        | some flag => return flag

structure CapDesc where
  needExtension : ℤ
  extension : UInt32
  needMsr : ℤ
  msr : UInt32
  name : Bytes
  deriving DecidableEq

def CapDesc.empty : CapDesc := ⟨0,0,0,0,[]⟩

def extCap (extension : UInt32) (name : Bytes) : CapDesc :=
  { CapDesc.empty with needExtension := 1,extension := extension,name := name }

def msrCap (msr : ℕ) (name : Bytes) : CapDesc :=
  { CapDesc.empty with needMsr := 1,msr := UInt32.ofNat msr,name := name }

def extMsrCap (extension : UInt32) (msr : ℕ) (name : Bytes) : CapDesc :=
  ⟨1,extension,1,UInt32.ofNat msr,name⟩

def filledCaps : List CapDesc :=
  [extCap KVM_CAP_HYPERV (cstr "base"),
    extCap KVM_CAP_HYPERV_TIME (cstr "time"),
    extMsrCap KVM_CAP_HYPERV_VP_INDEX KVMINFO_MSR_HV_VPINDEX (cstr "vpindex"),
    extCap KVM_CAP_HYPERV_TLBFLUSH (cstr "tlbflush"),
    extCap KVM_CAP_HYPERV_SEND_IPI (cstr "ipi"),
    extMsrCap KVM_CAP_HYPERV_SYNIC KVMINFO_MSR_HV_SYNIC (cstr "synic"),
    extMsrCap KVM_CAP_HYPERV_SYNIC2 KVMINFO_MSR_HV_SYNIC (cstr "synic2"),
    msrCap KVMINFO_MSR_HV_FREQUENCIES (cstr "frequencies"),
    msrCap KVMINFO_MSR_HV_RESET (cstr "reset"),
    msrCap KVMINFO_MSR_HV_RUNTIME (cstr "runtime"),
    msrCap KVMINFO_MSR_HV_STIMER (cstr "synictimer"),
    msrCap KVMINFO_MSR_HV_REENLIGHTENMENT (cstr "reenlightenment")]

def KVMINFO_CAPS_MAX : ℕ := 16

def allcaps : List CapDesc :=
  filledCaps ++ List.replicate (KVMINFO_CAPS_MAX - filledCaps.length) CapDesc.empty

def mustEmitLabel (enabled mode : ℤ) : ℤ :=
  if mode = KVM_INFO_SHOW_FEATURES then enabled
  else if mode = KVM_INFO_SHOW_MISSING then (if enabled = 0 then 1 else 0)
  else 0

def CAP_NAME_MAX : ℕ := 1024

-- What snprintf leaves in a buffer of `size` bytes, without the final NUL.
def snprintf (size : ℕ) (text : Bytes) : Bytes := text.take (size - 1)

def labelText (suffix name : Bytes) : Bytes :=
  cstr "/kvm-info-cap-hyperv-" ++ name ++ suffix ++ cstr "\n"

def emitLabel (cap : Bytes) : C W Unit := modify (fun m => m.emit cap)

def msrQuery (s : KVMState) (cap : CapDesc) : C W ℤ :=
  if cap.needMsr ≠ 0 then kvmStateHasEnabledMSR (some s) cap.msr else return 1

def extQuery (io : Io W) (s : KVMState) (cap : CapDesc) : C W ℤ :=
  if cap.needExtension ≠ 0 then io.kvmHasExtension s.fd cap.extension else return 1

def capBody (io : Io W) (s : KVMState) (mode : ℤ) (suffix : Bytes) (cap : CapDesc) : C W Unit := do
  let msrOk ← msrQuery s cap
  let extOk ← extQuery io s cap
  if mustEmitLabel (if msrOk ≠ 0 ∧ extOk ≠ 0 then 1 else 0) mode ≠ 0 then
    emitLabel (snprintf CAP_NAME_MAX (labelText suffix cap.name))

def capLoop (io : Io W) (s : KVMState) (mode : ℤ) (suffix : Bytes) : List CapDesc → C W Unit
  | [] => return ()
  | cap :: caps =>
      if cap.needMsr = 0 ∧ cap.needExtension = 0 then return ()
      else do
        capBody io s mode suffix cap
        capLoop io s mode suffix caps

def kvmStateScan (io : Io W) (dev : Bytes) (mode : ℤ) : C W ℤ := do
  let (err,s) ← kvmStateOpen io (some .init) dev
  if err ≠ 0 then return 0
  else
    let suffix := if mode = KVM_INFO_SHOW_MISSING then cstr "=false" else []
    capLoop io (← deref s) mode suffix allcaps
    let _ ← kvmStateClose io s
    return 0

end source
end Caps
