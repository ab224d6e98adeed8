import KvmInfo.Library.Hoare
import KvmInfo.Caps.Labels

namespace Caps
open Exec

section reading
variable {W γ : Type} (v : Machine W → γ)

theorem keeps_load (p : Ptr) : Keeps v (load p : C W MsrBlock) := by
  apply keeps_get.bind
  intro m
  cases m.heap.blocks p with
  | none => exact keeps_throw _
  | some block => exact keeps_pure block

theorem keeps_deref {α : Type} (p : Option α) : Keeps v (deref p : C W α) := by
  cases p with
  | none => exact keeps_throw _
  | some x => exact keeps_pure x

theorem keeps_incInt (i : ℤ) : Keeps v (incInt i : C W ℤ) :=
  keeps_ite (keeps_pure _) (keeps_throw _)

theorem keeps_readIndex (indices : List UInt32) (i : ℤ) :
    Keeps v (readIndex indices i : C W UInt32) := by
  apply keeps_ite (keeps_throw _)
  cases indices[i.toNat]? with
  | none => exact keeps_throw _
  | some index => exact keeps_pure index

theorem keeps_writeIndex (indices : List UInt32) (i : ℤ) (index : UInt32) :
    Keeps v (writeIndex indices i index : C W (List UInt32)) :=
  keeps_ite (keeps_throw _) (keeps_pure _)

theorem keeps_switchMsr (s : KVMState) (index : UInt32) :
    Keeps v (switchMsr s index : C W KVMState) := by
  rw [switchMsr]
  cases msrSlot index with
  | none => exact keeps_pure s
  | some slot =>
    dsimp only
    rw [storeMsr]
    split_ifs
    · exact keeps_pure _
    · exact keeps_throw _

theorem keeps_msrLoop (list : Ptr) (fuel : ℕ) (i : ℤ) (s : KVMState) :
    Keeps v (msrLoop list fuel i s : C W KVMState) := by
  induction fuel generalizing i s with
  | zero => exact keeps_throw _
  | succ fuel ih =>
    rw [msrLoop]
    apply (keeps_load v list).bind
    intro block
    apply keeps_ite _ (keeps_pure s)
    apply (keeps_readIndex v block.indices i).bind
    intro index
    apply (keeps_switchMsr v s index).bind
    intro s
    exact (keeps_incInt v i).bind fun i => ih i s

theorem keeps_hasEnabledMSR (s : Option KVMState) (msr : UInt32) :
    Keeps v (kvmStateHasEnabledMSR s msr : C W ℤ) := by
  cases s with
  | none => exact keeps_pure _
  | some s =>
    apply keeps_ite (keeps_pure _)
    cases s.msrs[msr.toNat]? with
    | none => exact keeps_throw _
    | some flag => exact keeps_pure flag

end reading

section world
variable {W : Type}

theorem keeps_store (p : Ptr) (block : MsrBlock) :
    Keeps Machine.world (store p block : C W Unit) := by
  apply (keeps_load _ p).bind
  intro old m a m' hr
  cases hr
  rfl

theorem keeps_free (p : Ptr) : Keeps Machine.world (free p : C W Unit) := by
  apply (keeps_load _ p).bind
  intro old m a m' hr
  cases hr
  rfl

theorem keeps_alloc (succeeds : ℕ → Bool) (nmsrs : UInt32) :
    Keeps Machine.world (kvmAllocMsrList succeeds nmsrs : C W (Option Ptr)) := by
  intro m r m' hr
  cases h : succeeds m.heap.calls with
  | false =>
    obtain ⟨-,rfl⟩ := hr.functional (runs_kvmAllocMsrList_fail h)
    rfl
  | true =>
    obtain ⟨-,rfl⟩ := hr.functional (runs_kvmAllocMsrList_ok h)
    rfl

end world

section scan
variable {W γ : Type} {v : Machine W → γ} {io : Io W}

theorem keeps_emitLabel (hv : ∀ m cap, v (m.emit cap) = v m) (cap : Bytes) :
    Keeps v (emitLabel cap : C W Unit) := by
  intro m a m' hr
  cases hr
  exact hv m cap

theorem keeps_capBody (hv : ∀ m cap, v (m.emit cap) = v m)
    (hio : ∀ fd ext, Keeps v (io.kvmHasExtension fd ext)) (s : KVMState) (mode : ℤ) (suffix : Bytes)
    (cap : CapDesc) : Keeps v (capBody io s mode suffix cap) := by
  apply Keeps.bind
  · exact keeps_ite (keeps_hasEnabledMSR v _ _) (keeps_pure _)
  · intro msrOk
    apply Keeps.bind
    · exact keeps_ite (hio _ _) (keeps_pure _)
    · exact fun extOk => keeps_ite (keeps_emitLabel hv _) (keeps_pure _)

theorem keeps_capLoop (hv : ∀ m cap, v (m.emit cap) = v m)
    (hio : ∀ fd ext, Keeps v (io.kvmHasExtension fd ext)) (s : KVMState) (mode : ℤ) (suffix : Bytes)
    (caps : List CapDesc) : Keeps v (capLoop io s mode suffix caps) := by
  induction caps with
  | nil => exact keeps_pure _
  | cons cap caps ih =>
    exact keeps_ite (keeps_pure _) ((keeps_capBody hv hio s mode suffix cap).bind fun _ => ih)

theorem keeps_stateClose (hio : ∀ fd, Keeps v (io.kvmClose fd)) (s : Option KVMState) :
    Keeps v (kvmStateClose io s) := by
  cases s with
  | none => exact keeps_pure _
  | some s =>
    apply keeps_ite _ (keeps_pure _)
    apply (hio s.fd).bind
    exact fun err => keeps_ite (keeps_pure _) (keeps_pure _)

end scan

section steps
variable {W : Type} {io : Io W} {m m' : Machine W}

theorem switchMsr_fd {s s' : KVMState} {index : UInt32} (h : Runs (switchMsr s index) m s' m') :
    s'.fd = s.fd := by
  rw [switchMsr] at h
  cases hslot : msrSlot index with
  | none =>
    rw [hslot] at h
    cases h
    rfl
  | some slot =>
    rw [hslot] at h
    dsimp only at h
    rw [storeMsr] at h
    split_ifs at h
    · cases h
      rfl
    · cases h

theorem msrLoop_fd {list : Ptr} {fuel : ℕ} {i : ℤ} {s s' : KVMState}
    (h : Runs (msrLoop list fuel i s) m s' m') : s'.fd = s.fd := by
  induction fuel generalizing i s m with
  | zero => cases h
  | succ fuel ih =>
    rw [msrLoop] at h
    obtain ⟨block,m₁,-,h⟩ := runs_bind_iff.mp h
    split_ifs at h
    · obtain ⟨index,m₂,-,h⟩ := runs_bind_iff.mp h
      obtain ⟨t,m₃,hswitch,h⟩ := runs_bind_iff.mp h
      obtain ⟨j,m₄,-,h⟩ := runs_bind_iff.mp h
      exact (ih h).trans (switchMsr_fd hswitch)
    · cases h
      rfl

def Io.Finishes (io : Io W) (mode fd : ℤ) (list : Ptr) (m m' : Machine W) : Prop :=
  ∃ s m₁ m₂ err, s.fd = fd ∧ Runs (free list) m () m₁ ∧
    Runs (capLoop io s mode (suffixOf mode) allcaps) m₁ () m₂ ∧ Runs (io.kvmClose fd) m₂ err m'

theorem supported_inv {s s' : KVMState} {ret : ℤ}
    (h : Runs (kvmGetSupportedMSRs io s) m (ret,s') m') :
    ∃ r m₁, Runs (io.kvmGetMsrList s.fd) m r m₁ ∧ s'.fd = s.fd ∧
      match r with
      | none => ret = -1 ∧ m' = m₁
      | some list => ret = 0 ∧ Runs (free list) m₁ () m' := by
  obtain ⟨r,m₁,hlist,h⟩ := runs_bind_iff.mp h
  refine ⟨r,m₁,hlist,?_⟩
  cases r with
  | none =>
    cases h
    exact ⟨rfl,rfl,rfl⟩
  | some list =>
    obtain ⟨t,m₂,hloop,h⟩ := runs_bind_iff.mp h
    obtain ⟨⟨⟩,m₃,hfree,h⟩ := runs_bind_iff.mp h
    cases h
    have hm₂ : m₂ = m₁ := keeps_msrLoop id list loopFuel 0 s _ _ _ hloop
    rw [hm₂] at hfree
    exact ⟨msrLoop_fd hloop,rfl,hfree⟩

theorem scan_inv {dev : Bytes} {mode ret : ℤ} (h : Runs (kvmStateScan io dev mode) m ret m') :
    ∃ fd m₁, Runs (io.kvmOpen dev) m fd m₁ ∧
      ((fd < 0 ∧ m' = m₁) ∨
        0 ≤ fd ∧ ∃ r m₂, Runs (io.kvmGetMsrList fd) m₁ r m₂ ∧
          match r with
          | none => m' = m₂
          | some list => io.Finishes mode fd list m₂ m') := by
  obtain ⟨⟨err,s⟩,m₃,hopen,h⟩ := runs_bind_iff.mp h
  obtain ⟨fd,m₁,hfd,hopen⟩ := runs_bind_iff.mp hopen
  refine ⟨fd,m₁,hfd,?_⟩
  by_cases hneg : fd < 0
  · rw [if_pos hneg] at hopen
    cases hopen
    cases h
    exact Or.inl ⟨hneg,rfl⟩
  · rw [if_neg hneg] at hopen
    obtain ⟨⟨ret',s'⟩,m₂,hmsrs,hopen⟩ := runs_bind_iff.mp hopen
    cases hopen
    obtain ⟨r,m₂,hlist,hs,hr⟩ := supported_inv hmsrs
    refine Or.inr ⟨not_lt.mp hneg,r,m₂,hlist,?_⟩
    cases r with
    | none =>
      obtain ⟨rfl,rfl⟩ := hr
      cases h
      rfl
    | some list =>
      obtain ⟨rfl,hfree⟩ := hr
      have hs : s'.fd = fd := hs
      obtain ⟨t,m₄,hderef,h⟩ := runs_bind_iff.mp h
      cases hderef
      obtain ⟨⟨⟩,m₅,hloop,h⟩ := runs_bind_iff.mp h
      obtain ⟨r,m₆,hclose,h⟩ := runs_bind_iff.mp h
      cases h
      have hfd' : s'.fd ≠ -1 := by
        rw [hs]
        omega
      rw [kvmStateClose,if_pos hfd'] at hclose
      obtain ⟨err,m₇,hclose,hend⟩ := runs_bind_iff.mp hclose
      have hm' : m' = m₇ := keeps_ite (v := id) (keeps_pure _) (keeps_pure _) _ _ _ hend
      rw [hs,← hm'] at hclose
      exact ⟨s',m₃,m₅,err,hs,hfree,hloop,hclose⟩

end steps

end Caps
