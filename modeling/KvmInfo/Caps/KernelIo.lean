import KvmInfo.Caps.Labels

namespace Caps
open Exec

def E2BIG : ℤ := 7

abbrev Errno := { e : ℤ // 0 < e ∧ e ≠ E2BIG }

abbrev MsrTable := { l : List UInt32 // l.length < 2 ^ 32 }

-- What the n-th system call finds: any choice is a behaviour of the environment.
structure Kernel where
  openDev : ℕ → Bytes → Bool
  closeDev : ℕ → ℤ → Bool
  msrIndexList : ℕ → ℤ → Except Errno MsrTable
  checkExtension : ℕ → ℤ → UInt32 → ℤ
  errno : ℕ → Errno
  calloc : ℕ → Bool

inductive FdEvent where
  | opened (fd : ℤ)
  | closed (fd : ℤ)
  deriving DecidableEq, Repr

structure Sys where
  clock : ℕ
  fds : Finset ℕ
  trace : List FdEvent

def lowestFree (fds : Finset ℕ) : ℕ :=
  ((List.range (fds.card + 1)).find? (· ∉ fds)).getD 0

def Sys.tick (w : Sys) : Sys := { w with clock := w.clock + 1 }

def Sys.openFd (w : Sys) : Sys :=
  ⟨w.clock + 1,insert (lowestFree w.fds) w.fds,w.trace ++ [.opened (lowestFree w.fds)]⟩

def Sys.closing (w : Sys) (fd : ℤ) : Sys := { w.tick with trace := w.trace ++ [.closed fd] }

def Sys.closeFd (w : Sys) (fd : ℤ) : Sys := { w.closing fd with fds := w.fds.erase fd.toNat }

abbrev Host := Machine Sys

def Machine.onSys (m : Host) (f : Sys → Sys) : Host := m.withWorld (f m.world)

section source
variable (k : Kernel)

def sysOpen (dev : Bytes) : C Sys ℤ := do
  let m ← get
  if k.openDev m.world.clock dev then
    set (m.onSys Sys.openFd)
    return lowestFree m.world.fds
  else
    set (m.onSys Sys.tick)
    return -1

def sysClose (fd : ℤ) : C Sys ℤ := do
  let m ← get
  if k.closeDev m.world.clock fd then
    set (m.onSys (Sys.closeFd · fd))
    return 0
  else
    set (m.onSys (Sys.closing · fd))
    return -1

def kvmIoctl (ret : ℤ) (errno : ℤ) : ℤ := if ret = -1 then -errno else ret

def ioctlCheckExtension (fd : ℤ) (extension : UInt32) : C Sys ℤ := do
  let m ← get
  set (m.onSys Sys.tick)
  return kvmIoctl (k.checkExtension m.world.clock fd extension) (k.errno m.world.clock).val

def ioctlMsrIndexList (fd : ℤ) (list : MsrBlock) : C Sys (ℤ × MsrBlock) := do
  let m ← get
  set (m.onSys Sys.tick)
  match k.msrIndexList m.world.clock fd with
  | .error err => return (kvmIoctl (-1) err.val,list)
  | .ok table =>
      let nmsrs := UInt32.ofNat table.val.length
      if list.nmsrs < nmsrs then return (kvmIoctl (-1) E2BIG,{ list with nmsrs := nmsrs })
      else if list.indices.length < table.val.length then throw .outOfBounds
      else return (kvmIoctl 0 0,⟨nmsrs,table.val ++ list.indices.drop table.val.length⟩)

def kvmOpen (dev : Bytes) : C Sys ℤ := sysOpen k dev

def kvmClose (fd : ℤ) : C Sys ℤ := sysClose k fd

def kvmHasExtension (fd : ℤ) (extension : UInt32) : C Sys ℤ := do
  let ret ← ioctlCheckExtension k fd extension
  if ret < 0 then return 0 else return ret

def fillMsrList (fd : ℤ) (list : Ptr) : C Sys (Option Ptr) := do
  let (ret,block) ← ioctlMsrIndexList k fd (← load list)
  store list block
  if ret < 0 then
    free list
    return none
  else return some list

def kvmGetMsrList (fd : ℤ) : C Sys (Option Ptr) := do
  let (ret,msrList) ← ioctlMsrIndexList k fd ⟨0,[]⟩
  if ret < 0 ∧ ret ≠ -E2BIG then return none
  else
    match ← kvmAllocMsrList k.calloc msrList.nmsrs with
    | none => return none
    | some list => fillMsrList k fd list

def kernelIo : Io Sys := ⟨kvmOpen k,kvmClose k,kvmHasExtension k,kvmGetMsrList k⟩

end source

theorem lowestFree_notMem (fds : Finset ℕ) : lowestFree fds ∉ fds := by
  rw [lowestFree]
  cases h : (List.range (fds.card + 1)).find? (· ∉ fds) with
  | some fd => simpa using List.find?_some h
  | none =>
    have hall : Finset.range (fds.card + 1) ⊆ fds := by
      intro fd hfd
      have := List.find?_eq_none.mp h fd (List.mem_range.mpr (Finset.mem_range.mp hfd))
      simpa using this
    have := Finset.card_le_card hall
    rw [Finset.card_range] at this
    omega

def Kernel.query (k : Kernel) (fd : ℤ) (clock calls : ℕ) : Option (List UInt32) :=
  match k.msrIndexList clock fd with
  | .error _ => none
  | .ok first =>
      if k.calloc calls then
        match k.msrIndexList (clock + 1) fd with
        | .error _ => none
        | .ok second =>
            if second.val.length ≤ first.val.length then some second.val else none
      else none

section runs
variable {k : Kernel} {m : Host} {fd : ℤ}

theorem runs_openDev {dev : Bytes} (h : k.openDev m.world.clock dev = true) :
    Runs (kvmOpen k dev) m (lowestFree m.world.fds) (m.onSys Sys.openFd) := by
  refine runs_get.bind ?_
  rw [if_pos h]
  rfl

theorem runs_openDev_failed {dev : Bytes} (h : k.openDev m.world.clock dev = false) :
    Runs (kvmOpen k dev) m (-1) (m.onSys Sys.tick) := by
  refine runs_get.bind ?_
  rw [if_neg (by simp [h])]
  rfl

theorem runs_closeDev (h : k.closeDev m.world.clock fd = true) :
    Runs (kvmClose k fd) m 0 (m.onSys (Sys.closeFd · fd)) := by
  refine runs_get.bind ?_
  rw [if_pos h]
  rfl

theorem runs_closeDev_failed (h : k.closeDev m.world.clock fd = false) :
    Runs (kvmClose k fd) m (-1) (m.onSys (Sys.closing · fd)) := by
  refine runs_get.bind ?_
  rw [if_neg (by simp [h])]
  rfl

theorem runs_kvmHasExtension (extension : UInt32) :
    ∃ r, Runs (kvmHasExtension k fd extension) m r (m.onSys Sys.tick) ∧
      (r ≠ 0 ↔ 0 < k.checkExtension m.world.clock fd extension) := by
  have herrno := (k.errno m.world.clock).property.1
  have hquery : Runs (ioctlCheckExtension k fd extension) m
      (kvmIoctl (k.checkExtension m.world.clock fd extension) (k.errno m.world.clock).val)
      (m.onSys Sys.tick) := rfl
  by_cases h : kvmIoctl (k.checkExtension m.world.clock fd extension)
      (k.errno m.world.clock).val < 0
  · refine ⟨0,hquery.bind (by rw [if_pos h]; exact runs_pure),?_⟩
    rw [kvmIoctl] at h
    split_ifs at h <;> simp <;> omega
  · refine ⟨_,hquery.bind (by rw [if_neg h]; exact runs_pure),?_⟩
    rw [kvmIoctl] at h ⊢
    split_ifs at h ⊢ <;> omega

theorem runs_ioctl_error {list : MsrBlock} {err : Errno}
    (h : k.msrIndexList m.world.clock fd = .error err) :
    Runs (ioctlMsrIndexList k fd list) m (-err.val,list) (m.onSys Sys.tick) := by
  refine runs_get.bind ((runs_modify (f := fun _ => m.onSys Sys.tick)).bind ?_)
  rw [h]
  exact runs_pure

theorem toNat_length (table : MsrTable) :
    (UInt32.ofNat table.val.length).toNat = table.val.length :=
  UInt32.toNat_ofNat_of_lt' table.property

theorem runs_ioctl_big {list : MsrBlock} {table : MsrTable}
    (h : k.msrIndexList m.world.clock fd = .ok table) (hbig : list.nmsrs.toNat < table.val.length) :
    Runs (ioctlMsrIndexList k fd list) m
      (-E2BIG,{ list with nmsrs := UInt32.ofNat table.val.length }) (m.onSys Sys.tick) := by
  have hlt : list.nmsrs < UInt32.ofNat table.val.length := by
    rwa [UInt32.lt_iff_toNat_lt,toNat_length]
  refine runs_get.bind ((runs_modify (f := fun _ => m.onSys Sys.tick)).bind ?_)
  simp only [h,if_pos hlt]
  exact runs_pure

theorem runs_ioctl_fits {list : MsrBlock} {table : MsrTable}
    (h : k.msrIndexList m.world.clock fd = .ok table) (hfit : table.val.length ≤ list.nmsrs.toNat)
    (hcap : list.nmsrs.toNat ≤ list.indices.length) :
    Runs (ioctlMsrIndexList k fd list) m
      (0,⟨UInt32.ofNat table.val.length,table.val ++ list.indices.drop table.val.length⟩)
      (m.onSys Sys.tick) := by
  have hlt : ¬list.nmsrs < UInt32.ofNat table.val.length := by
    rw [UInt32.lt_iff_toNat_lt,toNat_length]
    omega
  refine runs_get.bind ((runs_modify (f := fun _ => m.onSys Sys.tick)).bind ?_)
  simp only [h,if_neg hlt]
  rw [if_neg (by omega)]
  exact runs_pure

theorem runs_ioctl_first {table : MsrTable} (h : k.msrIndexList m.world.clock fd = .ok table) :
    ∃ ret, Runs (ioctlMsrIndexList k fd ⟨0,[]⟩) m
      (ret,⟨UInt32.ofNat table.val.length,[]⟩) (m.onSys Sys.tick) ∧ ¬(ret < 0 ∧ ret ≠ -E2BIG) := by
  by_cases hnil : table.val = []
  · have hrun : Runs (ioctlMsrIndexList k fd ⟨0,[]⟩) m _ _ :=
      runs_ioctl_fits h (by simp [hnil]) (by simp)
    exact ⟨0,by simpa [hnil] using hrun,by omega⟩
  · exact ⟨-E2BIG,runs_ioctl_big h (List.length_pos_iff.mpr hnil),by simp⟩

end runs

section query
variable {k : Kernel} {m : Host} {fd : ℤ}

def Host.Quiet (m m' : Host) : Prop :=
  m'.world.fds = m.world.fds ∧ m'.world.trace = m.world.trace ∧ m'.emitted = m.emitted

def Host.allocated (m : Host) (table : MsrTable) : Host :=
  (m.onSys Sys.tick).withHeap (m.heap.extended (freshBlock (UInt32.ofNat table.val.length)))

theorem runs_allocate (table : MsrTable) (h : k.calloc m.heap.calls = true) :
    Runs (kvmAllocMsrList k.calloc (UInt32.ofNat table.val.length)) (m.onSys Sys.tick)
      (some m.heap.next) (Host.allocated m table) :=
  runs_kvmAllocMsrList_ok h

theorem allocated_block (m : Host) (table : MsrTable) :
    (Host.allocated m table).heap.blocks m.heap.next =
      some (freshBlock (UInt32.ofNat table.val.length)) :=
  extended_self m.heap _

theorem freshBlock_nmsrs (table : MsrTable) :
    (freshBlock (UInt32.ofNat table.val.length)).nmsrs.toNat = table.val.length :=
  toNat_length table

theorem freshBlock_fits (nmsrs : UInt32) :
    (freshBlock nmsrs).nmsrs.toNat ≤ (freshBlock nmsrs).indices.length := by
  simp [freshBlock]

theorem runs_fillMsrList {list : Ptr} {old block : MsrBlock} {ret : ℤ}
    (hold : m.heap.blocks list = some old)
    (hioctl : Runs (ioctlMsrIndexList k fd old) m (ret,block) (m.onSys Sys.tick)) :
    Runs (fillMsrList k fd list) m (if ret < 0 then none else some list)
      ((m.onSys Sys.tick).withHeap (m.heap.set list (if ret < 0 then none else some block))) := by
  have hstore : Runs (store list block) (m.onSys Sys.tick) () _ := runs_store hold
  refine (runs_load hold).bind (hioctl.bind (hstore.bind ?_))
  split_ifs
  · refine (runs_free (set_self _ _ _)).bind ?_
    rw [withHeap_heap,set_set]
    exact runs_pure
  · exact runs_pure

theorem runs_kvmGetMsrList_fill {first : MsrTable} {r : Option Ptr} {m' : Host}
    (h : k.msrIndexList m.world.clock fd = .ok first) (hcalloc : k.calloc m.heap.calls = true)
    (hfill : Runs (fillMsrList k fd m.heap.next) (Host.allocated m first) r m') :
    Runs (kvmGetMsrList k fd) m r m' := by
  obtain ⟨ret,hfirst,hret⟩ := runs_ioctl_first h
  refine hfirst.bind ?_
  dsimp only
  rw [if_neg hret]
  exact (runs_allocate first hcalloc).bind hfill

theorem runs_kvmGetMsrList_some {l : List UInt32}
    (h : k.query fd m.world.clock m.heap.calls = some l) :
    ∃ m' list block, Runs (kvmGetMsrList k fd) m (some list) m' ∧
      m'.heap.blocks list = some block ∧ block.nmsrs.toNat ≤ block.indices.length ∧
      l = block.indices.take block.nmsrs.toNat ∧ m'.world.clock = m.world.clock + 2 ∧
      Host.Quiet m m' := by
  rw [Kernel.query] at h
  cases h₁ : k.msrIndexList m.world.clock fd with
  | error err => simp [h₁] at h
  | ok first =>
    cases h₂ : k.msrIndexList (m.world.clock + 1) fd with
    | error err => simp [h₁,h₂] at h
    | ok second =>
      simp only [h₁,h₂,Option.ite_none_right_eq_some,Option.some.injEq] at h
      obtain ⟨hcalloc,hle,rfl⟩ := h
      have hsecond : Runs (ioctlMsrIndexList k fd (freshBlock (UInt32.ofNat first.val.length)))
          (Host.allocated m first) (0,_) _ :=
        runs_ioctl_fits h₂ (by rwa [freshBlock_nmsrs]) (freshBlock_fits _)
      have hfill := runs_fillMsrList (allocated_block m first) hsecond
      refine ⟨_,m.heap.next,_,runs_kvmGetMsrList_fill h₁ hcalloc hfill,set_self _ _ _,?_,?_,rfl,?_⟩
      · rw [toNat_length,List.length_append]
        omega
      · rw [toNat_length,List.take_left]
      · exact ⟨rfl,rfl,rfl⟩

theorem runs_kvmGetMsrList_none (h : k.query fd m.world.clock m.heap.calls = none) :
    ∃ m', Runs (kvmGetMsrList k fd) m none m' ∧ Host.Quiet m m' := by
  rw [Kernel.query] at h
  cases h₁ : k.msrIndexList m.world.clock fd with
  | error err =>
    have hneg : -err.val < 0 ∧ -err.val ≠ -E2BIG := by
      have := err.property
      omega
    refine ⟨m.onSys Sys.tick,(runs_ioctl_error h₁).bind ?_,rfl,rfl,rfl⟩
    dsimp only
    rw [if_pos hneg]
    exact runs_pure
  | ok first =>
    cases hcalloc : k.calloc m.heap.calls with
    | false =>
      obtain ⟨ret,hfirst,hret⟩ := runs_ioctl_first h₁
      have halloc : Runs (kvmAllocMsrList k.calloc (UInt32.ofNat first.val.length))
          (m.onSys Sys.tick) none _ := runs_kvmAllocMsrList_fail hcalloc
      refine ⟨(m.onSys Sys.tick).withHeap m.heap.failed,hfirst.bind ?_,rfl,rfl,rfl⟩
      dsimp only
      rw [if_neg hret]
      exact halloc.bind runs_pure
    | true =>
      have hsecond : ∃ ret block, Runs (ioctlMsrIndexList k fd
          (freshBlock (UInt32.ofNat first.val.length))) (Host.allocated m first) (ret,block)
          (Machine.onSys (Host.allocated m first) Sys.tick) ∧ ret < 0 := by
        cases h₂ : k.msrIndexList (m.world.clock + 1) fd with
        | error err => exact ⟨_,_,runs_ioctl_error h₂,by have := err.property.1; omega⟩
        | ok second =>
          have hbig : first.val.length < second.val.length := by
            simpa [h₁,h₂,hcalloc] using h
          exact ⟨_,_,runs_ioctl_big h₂ (by rwa [freshBlock_nmsrs]),by decide⟩
      obtain ⟨ret₂,block,hsecond,hneg⟩ := hsecond
      have hfill := runs_fillMsrList (allocated_block m first) hsecond
      rw [if_pos hneg] at hfill
      exact ⟨_,runs_kvmGetMsrList_fill h₁ hcalloc hfill,rfl,rfl,rfl⟩

end query
end Caps
