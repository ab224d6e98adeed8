import KvmInfo.Caps.FlagRuns
import KvmInfo.Caps.Descriptors
import KvmInfo.Caps.Frames

namespace Caps
open Exec

def Heap.Fresh (h : Heap) : Prop := ∀ p, h.next ≤ p → h.blocks p = none

abbrev Live := Ptr → Option MsrBlock

def Kept (b : Live) (h : Heap) : Prop := h.blocks = b ∧ h.Fresh

def Holds (b : Live) (p : Ptr) (h : Heap) : Prop :=
  b p = none ∧ (∃ block, h.blocks = Function.update b p (some block)) ∧ h.Fresh

def Obtained (b : Live) (r : Option Ptr) (h : Heap) : Prop :=
  match r with
  | none => Kept b h
  | some p => Holds b p h

section heap
variable {W α β : Type} {b : Live} {p : Ptr} {h : Heap}

def OnHeap (P : Heap → Prop) (m : Machine W) : Prop := P m.heap

theorem triple_onHeap {c : C W α} (hc : Keeps Machine.heap c) (P : Heap → Prop) :
    Triple (OnHeap P) c (fun _ => OnHeap P) (fun _ => True) :=
  hc.triple P

theorem kept_fresh (hk : Kept b h) : b h.next = none := by
  rw [← hk.1]
  exact hk.2 h.next le_rfl

theorem kept_extended (hk : Kept b h) (block : MsrBlock) : Holds b h.next (h.extended block) := by
  refine ⟨kept_fresh hk,⟨block,?_⟩,?_⟩
  · rw [Heap.extended,hk.1]
  · intro p hp
    have hlt : h.next < p := hp
    simp only [Heap.extended,Function.update_of_ne hlt.ne']
    exact hk.2 p hlt.le

theorem holds_bound (hh : Holds b p h) : p < h.next := by
  obtain ⟨-,⟨block,hblocks⟩,hfresh⟩ := hh
  by_contra hle
  have hnone := hfresh p (not_lt.mp hle)
  rw [hblocks,Function.update_self] at hnone
  cases hnone

theorem holds_store (hh : Holds b p h) (block : MsrBlock) : Holds b p (h.set p (some block)) := by
  have hlt := holds_bound hh
  obtain ⟨hp,⟨old,hblocks⟩,hfresh⟩ := hh
  refine ⟨hp,⟨block,?_⟩,?_⟩
  · simp [Heap.set,hblocks]
  · intro q hq
    have hne : p < q := hlt.trans_le hq
    simp only [Heap.set,Function.update_of_ne hne.ne']
    exact hfresh q hq

theorem holds_free (hh : Holds b p h) : Kept b (h.set p none) := by
  have hlt := holds_bound hh
  obtain ⟨hp,⟨old,hblocks⟩,hfresh⟩ := hh
  refine ⟨?_,?_⟩
  · simp only [Heap.set,hblocks,Function.update_idem]
    rw [← hp,Function.update_eq_self]
  · intro q hq
    have hne : p < q := hlt.trans_le hq
    simp only [Heap.set,Function.update_of_ne hne.ne']
    exact hfresh q hq

end heap

section query
variable {k : Kernel} {b : Live} {p : Ptr} {fd : ℤ} {E : Fault → Prop}

theorem triple_alloc {W : Type} (succeeds : ℕ → Bool) (nmsrs : UInt32) :
    Triple (OnHeap (Kept b)) (kvmAllocMsrList succeeds nmsrs : C W (Option Ptr))
      (fun r => OnHeap (Obtained b r)) (fun _ => True) := by
  refine triple_of_runs fun m hm r m' hr => ?_
  cases h : succeeds m.heap.calls with
  | false =>
    obtain ⟨rfl,rfl⟩ := hr.functional (runs_kvmAllocMsrList_fail h)
    exact hm
  | true =>
    obtain ⟨rfl,rfl⟩ := hr.functional (runs_kvmAllocMsrList_ok h)
    exact kept_extended hm (freshBlock nmsrs)

theorem holds_block {h : Heap} (hh : Holds b p h) : ∃ block, h.blocks p = some block := by
  obtain ⟨-,⟨block,hblocks⟩,-⟩ := hh
  exact ⟨block,by rw [hblocks,Function.update_self]⟩

theorem triple_store {W : Type} (block : MsrBlock) :
    Triple (OnHeap (Holds b p)) (store p block : C W Unit) (fun _ => OnHeap (Holds b p))
      (fun _ => True) := by
  refine triple_of_runs fun m hm r m' hr => ?_
  obtain ⟨old,hold⟩ := holds_block hm
  obtain ⟨-,rfl⟩ := hr.functional (runs_store hold)
  exact holds_store hm block

theorem triple_free {W : Type} :
    Triple (OnHeap (Holds b p)) (free p : C W Unit) (fun _ => OnHeap (Kept b)) (fun _ => True) := by
  refine triple_of_runs fun m hm r m' hr => ?_
  obtain ⟨old,hold⟩ := holds_block hm
  obtain ⟨-,rfl⟩ := hr.functional (runs_free hold)
  exact holds_free hm

theorem keeps_ioctl (k : Kernel) (fd : ℤ) (list : MsrBlock) :
    Keeps Machine.heap (ioctlMsrIndexList k fd list) := by
  intro m r m' hr
  obtain ⟨m₁,m₂,hget,hr⟩ := runs_bind_iff.mp hr
  cases hget
  obtain ⟨⟨⟩,m₃,hset,hr⟩ := runs_bind_iff.mp hr
  cases hset
  cases h : k.msrIndexList m.world.clock fd with
  | error err =>
    simp only [h] at hr
    cases hr
    rfl
  | ok table =>
    simp only [h] at hr
    split_ifs at hr <;> cases hr <;> rfl

theorem triple_fillMsrList (k : Kernel) (fd : ℤ) :
    Triple (OnHeap (Holds b p)) (fillMsrList k fd p) (fun r => OnHeap (Obtained b r))
      (fun _ => True) := by
  rw [fillMsrList]
  apply (triple_onHeap (keeps_load _ p) _).bind
  intro old
  apply (triple_onHeap (keeps_ioctl k fd old) _).bind
  rintro ⟨ret,block⟩
  apply (triple_store block).bind
  intro _
  split_ifs
  · exact triple_free.bind fun _ => triple_pure fun _ hm => hm
  · exact triple_pure fun _ hm => hm

theorem triple_getMsrList (k : Kernel) (fd : ℤ) :
    Triple (OnHeap (Kept b)) (kvmGetMsrList k fd) (fun r => OnHeap (Obtained b r))
      (fun _ => True) := by
  rw [kvmGetMsrList]
  apply (triple_onHeap (keeps_ioctl k fd _) _).bind
  rintro ⟨ret,msrList⟩
  dsimp only
  split_ifs
  · exact triple_pure fun _ hm => hm
  · refine (triple_alloc k.calloc msrList.nmsrs).bind fun r => ?_
    cases r with
    | none => exact triple_pure fun _ hm => hm
    | some list => exact triple_fillMsrList k fd

end query

structure Io.Tidy {W : Type} (io : Io W) : Prop where
  opens : ∀ dev, Keeps Machine.heap (io.kvmOpen dev)
  closes : ∀ fd, Keeps Machine.heap (io.kvmClose fd)
  answers : ∀ fd ext, Keeps Machine.heap (io.kvmHasExtension fd ext)
  lists : ∀ b fd, Triple (OnHeap (Kept b)) (io.kvmGetMsrList fd)
    (fun r => OnHeap (Obtained b r)) (fun _ => True)

theorem kernelIo_tidy (k : Kernel) : (kernelIo k).Tidy where
  opens dev := by
    intro m r m' hr
    obtain ⟨m₁,m₂,hget,hr⟩ := runs_bind_iff.mp hr
    cases hget
    split_ifs at hr <;> cases hr <;> rfl
  closes fd := by
    intro m r m' hr
    obtain ⟨m₁,m₂,hget,hr⟩ := runs_bind_iff.mp hr
    cases hget
    split_ifs at hr <;> cases hr <;> rfl
  answers fd ext := by
    intro m r m' hr
    obtain ⟨r',hrun,-⟩ := runs_kvmHasExtension ext
    obtain ⟨-,rfl⟩ := hr.functional hrun
    rfl
  lists b fd := triple_getMsrList k fd

section scan
variable {W : Type} {io : Io W} {b : Live}

theorem Io.Tidy.getSupportedMSRs (h : io.Tidy) (s : KVMState) :
    Triple (OnHeap (Kept b)) (kvmGetSupportedMSRs io s) (fun _ => OnHeap (Kept b))
      (fun _ => True) := by
  rw [kvmGetSupportedMSRs]
  refine (h.lists b s.fd).bind fun r => ?_
  cases r with
  | none => exact triple_pure fun _ hm => hm
  | some list =>
    apply (triple_onHeap (keeps_msrLoop _ list loopFuel 0 s) _).bind
    intro s
    exact triple_free.bind fun _ => triple_pure fun _ hm => hm

theorem Io.Tidy.stateOpen (h : io.Tidy) (s : Option KVMState) (devkvm : Bytes) :
    Triple (OnHeap (Kept b)) (kvmStateOpen io s devkvm) (fun _ => OnHeap (Kept b))
      (fun _ => True) := by
  cases s with
  | none => exact triple_pure fun _ hm => hm
  | some s =>
    rw [kvmStateOpen]
    apply (triple_onHeap (h.opens devkvm) _).bind
    intro fd
    split_ifs
    · exact triple_pure fun _ hm => hm
    · exact (h.getSupportedMSRs _).bind fun _ => triple_pure fun _ hm => hm

theorem Io.Tidy.scan (h : io.Tidy) (dev : Bytes) (mode : ℤ) :
    Triple (OnHeap (Kept b)) (kvmStateScan io dev mode) (fun _ => OnHeap (Kept b))
      (fun _ => True) := by
  rw [kvmStateScan]
  refine (h.stateOpen _ dev).bind fun (err,s) => ?_
  dsimp only
  by_cases herr : err ≠ 0
  · rw [if_pos herr]
    exact triple_pure fun _ hm => hm
  · rw [if_neg herr]
    cases s with
    | none => exact triple_throw fun _ _ => trivial
    | some s =>
      refine Triple.bind (Q := fun _ => OnHeap (Kept b)) (triple_pure fun _ hm => hm) fun s' => ?_
      have hloop := keeps_capLoop (fun _ _ => rfl) h.answers s' mode (suffixOf mode) allcaps
      apply (triple_onHeap hloop _).bind
      intro _
      apply (triple_onHeap (keeps_stateClose h.closes _) _).bind
      exact fun _ => triple_pure fun _ hm => hm

end scan

section runs
variable {k : Kernel} {b : Live}

theorem scanStep_kept {m m' : Host} {call : Bytes × ℤ} (h : ScanStep k m call m')
    (hm : Kept b m.heap) : Kept b m'.heap := by
  obtain ⟨ret,hrun⟩ := h
  exact ((kernelIo_tidy k).scan call.1 call.2 m hm).1 ret m' hrun

theorem stateStep_kept {h h' : Handle} {call : StateCall} (hs : StateStep k h call h')
    (hh : Kept b h.1.heap) : Kept b h'.1.heap := by
  cases call with
  | stateOpen dev ret => exact ((kernelIo_tidy k).stateOpen (some h.2) dev h.1 hh).1 _ _ hs
  | stateClose err =>
    have hclose := keeps_stateClose (kernelIo_tidy k).closes (some h.2)
    exact (triple_onHeap hclose (Kept b) h.1 hh).1 _ _ hs

theorem heap_balanced (k : Kernel) {m : Host} (hfresh : m.heap.Fresh) :
    (∀ scans m', Run (ScanStep k) m scans m' →
      ∀ x ∈ scans, x.2.2.heap.blocks = m.heap.blocks) ∧
    ∀ s calls h', Run (StateStep k) (m,s) calls h' →
      ∀ x ∈ calls, x.2.2.1.heap.blocks = m.heap.blocks := by
  have hm : Kept m.heap.blocks m.heap := ⟨rfl,hfresh⟩
  constructor
  · intro scans m' h x hx
    exact ((h.throughout (I := fun m' => Kept m.heap.blocks m'.heap) hm
      fun _ _ _ => scanStep_kept).1 x hx).1
  · intro s calls h' h x hx
    exact ((h.throughout (I := fun h' => Kept m.heap.blocks h'.1.heap) hm
      fun _ _ _ => stateStep_kept).1 x hx).1

end runs

section witness

def flakyKernel : Kernel :=
  { resetKernel with
    msrIndexList := fun n _ => if n % 2 = 0 then .error EINVAL else .ok resetTable }

theorem flaky_strands (m : Host) (dev : Bytes) : flakyKernel.Strands m dev := by
  refine ⟨rfl,?_⟩
  have hopens : flakyKernel.openDev m.world.clock dev = true := rfl
  rw [Kernel.obtained,if_pos hopens,Kernel.query]
  rcases Nat.mod_two_eq_zero_or_one m.world.clock with hclock | hclock
  · have hnext : (m.world.clock + 1 + 1) % 2 = 0 := by omega
    have hthis : ¬(m.world.clock + 1) % 2 = 0 := by omega
    simp [flakyKernel,resetKernel,hnext,hthis]
  · have hthis : (m.world.clock + 1) % 2 = 0 := by omega
    simp [flakyKernel,resetKernel,hthis]

theorem heap_balanced_boot : ∃ m₁ m₂ h, flakyKernel.Strands bootHost (cstr "/dev/kvm") ∧
    Run (ScanStep flakyKernel) bootHost
      [(bootHost,(cstr "/dev/kvm",KVM_INFO_SHOW_FEATURES),m₁),
        (m₁,(cstr "/dev/kvm",KVM_INFO_SHOW_MISSING),m₂)] m₂ ∧
      m₁.heap.blocks = (fun _ => none) ∧ m₂.heap.blocks = (fun _ => none) ∧
    Run (StateStep flakyKernel) (bootHost,.init)
      [((bootHost,.init),.stateOpen (cstr "/dev/kvm") (-1),h)] h ∧
      h.1.heap.blocks = fun _ => none := by
  have hfresh : bootHost.heap.Fresh := fun _ _ => rfl
  have hscan (m : Host) (mode : ℤ) : ∃ m', ScanStep flakyKernel m (cstr "/dev/kvm",mode) m' := by
    have hsilent : ∃ m', Runs (kvmStateScan (kernelIo flakyKernel) (cstr "/dev/kvm") mode) m 0 m' ∧
        m'.emitted = m.emitted := kernel_scan_silent (flaky_strands m (cstr "/dev/kvm")).2
    obtain ⟨m',hrun,-⟩ := hsilent
    exact ⟨m',0,hrun⟩
  obtain ⟨m₁,h₁⟩ := hscan bootHost KVM_INFO_SHOW_FEATURES
  obtain ⟨m₂,h₂⟩ := hscan m₁ KVM_INFO_SHOW_MISSING
  obtain ⟨m₃,hopen,-⟩ := kernel_stranded (flaky_strands bootHost (cstr "/dev/kvm")) .init
  have hscans : Run (ScanStep flakyKernel) bootHost _ m₂ := .cons h₁ (.cons h₂ (.nil m₂))
  have hcalls : Run (StateStep flakyKernel) (bootHost,.init)
      [((bootHost,.init),.stateOpen (cstr "/dev/kvm") (-1),(m₃,_))] (m₃,_) :=
    .cons hopen (.nil _)
  have hbalanced := heap_balanced flakyKernel hfresh
  refine ⟨m₁,m₂,_,flaky_strands _ _,hscans,?_,?_,hcalls,?_⟩
  · exact hbalanced.1 _ m₂ hscans _ List.mem_cons_self
  · exact hbalanced.1 _ m₂ hscans _ (List.mem_cons_of_mem _ List.mem_cons_self)
  · exact hbalanced.2 _ _ _ hcalls _ List.mem_cons_self

end witness

end Caps
