import KvmInfo.Caps.Scan

namespace Caps
open Exec

def slotMsrs : List (ℕ × UInt32) :=
  [(KVMINFO_MSR_HV_CRASH,HV_X64_MSR_CRASH_CTL),
    (KVMINFO_MSR_HV_RESET,HV_X64_MSR_RESET),
    (KVMINFO_MSR_HV_VPINDEX,HV_X64_MSR_VP_INDEX),
    (KVMINFO_MSR_HV_RUNTIME,HV_X64_MSR_VP_RUNTIME),
    (KVMINFO_MSR_HV_SYNIC,HV_X64_MSR_SCONTROL),
    (KVMINFO_MSR_HV_STIMER,HV_X64_MSR_STIMER0_CONFIG),
    (KVMINFO_MSR_HV_FREQUENCIES,HV_X64_MSR_TSC_FREQUENCY),
    (KVMINFO_MSR_HV_REENLIGHTENMENT,HV_X64_MSR_REENLIGHTENMENT_CONTROL)]

def Listed (slot : ℕ) (l : List UInt32) : Prop := ∃ index ∈ l, (slot,index) ∈ slotMsrs

instance (slot : ℕ) (l : List UInt32) : Decidable (Listed slot l) :=
  inferInstanceAs (Decidable (∃ index ∈ l, _))

def flag (s : KVMState) (slot : ℕ) : ℤ := (s.msrs[slot]?).getD 0

def mark (s : KVMState) (index : UInt32) : KVMState :=
  match msrSlot index with
  | some slot =>
      if h : slot < KVMINFO_MSR_HV_NUM then { s with msrs := s.msrs.set slot 1 h } else s
  | none => s

theorem msrSlot_iff (index : UInt32) (slot : ℕ) :
    msrSlot index = some slot ↔ (slot,index) ∈ slotMsrs := by
  constructor
  · intro h
    rw [msrSlot] at h
    split_ifs at h with h1 h2 h3 h4 h5 h6 h7 h8 <;> cases h <;> subst index <;> decide
  · intro h
    simp only [slotMsrs,List.mem_cons,Prod.mk.injEq,List.not_mem_nil,or_false] at h
    rcases h with ⟨rfl,rfl⟩ | ⟨rfl,rfl⟩ | ⟨rfl,rfl⟩ | ⟨rfl,rfl⟩ | ⟨rfl,rfl⟩ | ⟨rfl,rfl⟩ | ⟨rfl,rfl⟩ |
      ⟨rfl,rfl⟩ <;> decide

theorem slotMsrs_lt : ∀ x ∈ slotMsrs, 0 < x.1 ∧ x.1 < KVMINFO_MSR_HV_NUM := by decide

theorem msrSlot_lt {index : UInt32} {slot : ℕ} (h : msrSlot index = some slot) :
    slot < KVMINFO_MSR_HV_NUM :=
  (slotMsrs_lt _ ((msrSlot_iff index slot).mp h)).2

theorem mark_fd (s : KVMState) (index : UInt32) : (mark s index).fd = s.fd := by
  rw [mark]
  split
  · split_ifs <;> rfl
  · rfl

theorem foldl_mark_fd (l : List UInt32) (s : KVMState) : (l.foldl mark s).fd = s.fd := by
  induction l generalizing s with
  | nil => rfl
  | cons index l ih => rw [List.foldl_cons,ih,mark_fd]

theorem flag_mark (s : KVMState) (index : UInt32) (slot : ℕ) :
    flag (mark s index) slot ≠ 0 ↔ msrSlot index = some slot ∨ flag s slot ≠ 0 := by
  rw [mark]
  cases h : msrSlot index with
  | none => simp
  | some k =>
    have hk := msrSlot_lt h
    by_cases he : k = slot
    · subst he
      simp [flag,hk]
    · simp [flag,hk,he]

theorem flag_foldl_mark (l : List UInt32) (s : KVMState) (slot : ℕ) :
    flag (l.foldl mark s) slot ≠ 0 ↔ Listed slot l ∨ flag s slot ≠ 0 := by
  induction l generalizing s with
  | nil => simp [Listed]
  | cons index l ih =>
    rw [List.foldl_cons,ih,flag_mark,msrSlot_iff]
    simp only [Listed,List.mem_cons,exists_eq_or_imp]
    rw [or_assoc,or_left_comm]

theorem flag_init (fd : ℤ) (slot : ℕ) : flag { KVMState.init with fd := fd } slot = 0 := by
  simp only [flag,KVMState.init]
  by_cases h : slot < KVMINFO_MSR_HV_NUM
  · simp [h]
  · simp [Nat.not_lt.mp h]

def openedState (fd : ℤ) (l : List UInt32) : KVMState := l.foldl mark { KVMState.init with fd := fd }

@[simp] theorem openedState_fd (fd : ℤ) (l : List UInt32) : (openedState fd l).fd = fd :=
  foldl_mark_fd l _

theorem flag_openedState (fd : ℤ) (l : List UInt32) (slot : ℕ) :
    flag (openedState fd l) slot ≠ 0 ↔ Listed slot l := by
  rw [openedState,flag_foldl_mark,flag_init]
  simp

section runs
variable {W : Type} {io : Io W} {m : Machine W} {s : KVMState}

theorem runs_hasEnabledMSR {msr : UInt32} (h : msr.toNat < KVMINFO_MSR_HV_NUM) :
    Runs (kvmStateHasEnabledMSR (some s) msr) m (flag s msr.toNat) m := by
  simp only [kvmStateHasEnabledMSR,flag,Vector.getElem?_eq_getElem h]
  rw [if_neg (by omega)]
  exact runs_pure

theorem toUnsigned_natCast {i : ℕ} (h : i < 2 ^ 32) : toUnsigned i = i := by
  unfold toUnsigned
  omega

theorem runs_mark (index : UInt32) :
    Runs (switchMsr s index) m (mark s index) m := by
  rw [switchMsr,mark]
  cases h : msrSlot index with
  | none => exact runs_pure
  | some slot =>
    simp only [storeMsr,dif_pos (msrSlot_lt h)]
    exact runs_pure

theorem runs_msrLoop {list : Ptr} {block : MsrBlock} (hb : m.heap.blocks list = some block)
    (hfit : block.nmsrs.toNat ≤ block.indices.length) (hmax : block.nmsrs.toNat < 2 ^ 31)
    (fuel i : ℕ) (hi : i ≤ block.nmsrs.toNat) (hfuel : block.nmsrs.toNat < fuel + i) (s : KVMState) :
    Runs (msrLoop list fuel i s) m
      (((block.indices.take block.nmsrs.toNat).drop i).foldl mark s) m := by
  induction fuel generalizing i s with
  | zero => omega
  | succ fuel ih =>
    refine (runs_load hb).bind ?_
    rw [toUnsigned_natCast (by omega)]
    by_cases hlt : i < block.nmsrs.toNat
    · have hlen : i < (block.indices.take block.nmsrs.toNat).length := by
        rw [List.length_take]
        omega
      rw [if_pos hlt,List.drop_eq_getElem_cons hlen,List.foldl_cons,List.getElem_take]
      refine (runs_readIndex (by omega)).bind ((runs_mark _).bind ?_)
      refine (runs_incInt (by unfold intMax; omega)).bind ?_
      exact ih (i + 1) hlt (by omega) _
    · rw [if_neg hlt,List.drop_eq_nil_of_le (by rw [List.length_take]; omega)]
      exact runs_pure

theorem faults_msrLoop {list : Ptr} {block : MsrBlock} (hb : m.heap.blocks list = some block)
    (hfit : block.nmsrs.toNat ≤ block.indices.length) (hmax : 2 ^ 31 ≤ block.nmsrs.toNat)
    (fuel i : ℕ) (hfuel : fuel + 1 + i = 2 ^ 31) (s : KVMState) :
    Faults (msrLoop list (fuel + 1) i s) m .signedOverflow := by
  induction fuel generalizing i s with
  | zero =>
    refine (runs_load hb).bind_faults ?_
    rw [toUnsigned_natCast (by omega),if_pos (by omega)]
    refine (runs_readIndex (by omega)).bind_faults ((runs_mark _).bind_faults (Faults.bind ?_))
    rw [incInt,if_neg (by unfold intMax; omega)]
    exact faults_throw
  | succ fuel ih =>
    refine (runs_load hb).bind_faults ?_
    rw [toUnsigned_natCast (by omega),if_pos (by omega)]
    refine (runs_readIndex (by omega)).bind_faults ((runs_mark _).bind_faults ?_)
    exact (runs_incInt (by unfold intMax; omega)).bind_faults (ih (i + 1) (by omega) _)

theorem runs_getSupportedMSRs {list : Ptr} {block : MsrBlock} {m₁ : Machine W}
    (hlist : Runs (io.kvmGetMsrList s.fd) m (some list) m₁)
    (hb : m₁.heap.blocks list = some block) (hfit : block.nmsrs.toNat ≤ block.indices.length)
    (hmax : block.nmsrs.toNat < 2 ^ 31) :
    Runs (kvmGetSupportedMSRs io s) m (0,(block.indices.take block.nmsrs.toNat).foldl mark s)
      (m₁.withHeap (m₁.heap.set list none)) := by
  refine hlist.bind ?_
  have hloop := runs_msrLoop hb hfit hmax loopFuel 0 (by omega) (by unfold loopFuel; omega) s
  exact hloop.bind ((runs_free hb).bind runs_pure)

theorem runs_getSupportedMSRs_null {m₁ : Machine W}
    (hlist : Runs (io.kvmGetMsrList s.fd) m none m₁) :
    Runs (kvmGetSupportedMSRs io s) m (-1,s) m₁ :=
  hlist.bind runs_pure

-- The device opens as `fd` and its MSR list is `l`; `m'` is the machine once the list is freed.
def Io.Lists (io : Io W) (dev : Bytes) (m : Machine W) (fd : ℤ) (l : List UInt32)
    (m' : Machine W) : Prop :=
  0 ≤ fd ∧ ∃ m₁ m₂ list block, Runs (io.kvmOpen dev) m fd m₁ ∧
    Runs (io.kvmGetMsrList fd) m₁ (some list) m₂ ∧ m₂.heap.blocks list = some block ∧
    block.nmsrs.toNat ≤ block.indices.length ∧ l = block.indices.take block.nmsrs.toNat ∧
    m' = m₂.withHeap (m₂.heap.set list none)

theorem runs_open_lists {dev : Bytes} {fd : ℤ} {l : List UInt32} {m' : Machine W}
    (h : io.Lists dev m fd l m') (hl : l.length < 2 ^ 31) (s : KVMState) :
    Runs (kvmStateOpen io (some s) dev) m (0,some (l.foldl mark { s with fd := fd })) m' := by
  obtain ⟨hfd,m₁,m₂,list,block,hopen,hlist,hb,hfit,rfl,rfl⟩ := h
  have hmax : block.nmsrs.toNat < 2 ^ 31 := by simpa [hfit] using hl
  refine hopen.bind ?_
  rw [if_neg (not_lt.mpr hfd)]
  exact (runs_getSupportedMSRs hlist hb hfit hmax).bind runs_pure

theorem faults_open_lists {dev : Bytes} {fd : ℤ} {l : List UInt32} {m' : Machine W}
    (h : io.Lists dev m fd l m') (hl : 2 ^ 31 ≤ l.length) (s : KVMState) :
    Faults (kvmStateOpen io (some s) dev) m .signedOverflow := by
  obtain ⟨hfd,m₁,m₂,list,block,hopen,hlist,hb,hfit,rfl,rfl⟩ := h
  have hmax : 2 ^ 31 ≤ block.nmsrs.toNat := by simpa [hfit] using hl
  have hloop := faults_msrLoop hb hfit hmax (2 ^ 31 - 1) 0 (by omega) { s with fd := fd }
  refine hopen.bind_faults ?_
  rw [if_neg (not_lt.mpr hfd)]
  exact (hlist.bind_faults hloop.bind).bind

theorem runs_open_refused {dev : Bytes} {fd : ℤ} {m' : Machine W}
    (hopen : Runs (io.kvmOpen dev) m fd m') (hfd : fd < 0) (s : KVMState) :
    Runs (kvmStateOpen io (some s) dev) m (-1,some { s with fd := fd }) m' := by
  refine hopen.bind ?_
  rw [if_pos hfd]
  exact runs_pure

theorem runs_open_unlisted {dev : Bytes} {fd : ℤ} {m₁ m' : Machine W}
    (hopen : Runs (io.kvmOpen dev) m fd m₁) (hfd : 0 ≤ fd)
    (hlist : Runs (io.kvmGetMsrList fd) m₁ none m') (s : KVMState) :
    Runs (kvmStateOpen io (some s) dev) m (-1,some { s with fd := fd }) m' := by
  refine hopen.bind ?_
  rw [if_neg (not_lt.mpr hfd)]
  exact (runs_getSupportedMSRs_null hlist).bind runs_pure

end runs
end Caps
