import KvmInfo.Library.Traced
import KvmInfo.Caps.KernelIo

namespace Caps
open Exec Tracing

inductive Access where
  | index (i : ℤ)
  | flag (slot : ℕ)
  | allocated (p : Ptr) (size : ℕ)
  | filled (p : Ptr) (count : ℕ)
  | freed (p : Ptr)
  deriving DecidableEq, Repr

abbrev TracedC (W α : Type) := Traced Fault (Machine W) Access α

def Access.position? : Access → Option ℤ
  | .index i => some i
  | _ => none

def positions (log : List Access) : List ℤ := log.filterMap Access.position?

section source
variable {W : Type}

def tracedSwitchMsr (s : KVMState) (index : UInt32) : TracedC W KVMState :=
  match msrSlot index with
  | some slot => do
      record (.flag slot)
      perform (storeMsr s slot)
  | none => pure s

def tracedMsrBody (block : MsrBlock) (i : ℤ) (s : KVMState) : TracedC W KVMState := do
  record (.index i)
  let index ← perform (readIndex block.indices i)
  tracedSwitchMsr s index

def tracedMsrLoop (list : Ptr) : ℕ → ℤ → KVMState → TracedC W KVMState
  | 0, _, _ => perform (throw .outOfFuel)
  | fuel + 1, i, s => do
      let block ← perform (load list)
      if toUnsigned i < block.nmsrs.toNat then do
        let s ← tracedMsrBody block i s
        let i ← perform (incInt i)
        tracedMsrLoop list fuel i s
      else return s

def tracedHasEnabledMSR (s : Option KVMState) (msr : UInt32) : TracedC W ℤ :=
  match s with
  | none => return 0
  | some s =>
      if msr.toNat > KVMINFO_MSR_HV_NUM then return 0
      else do
        record (.flag msr.toNat)
        perform (match s.msrs[msr.toNat]? with
          | none => throw .outOfBounds
          | some flag => return flag)

theorem erase_switchMsr (s : KVMState) (index : UInt32) :
    erase (tracedSwitchMsr s index : TracedC W KVMState) = switchMsr s index := by
  rw [tracedSwitchMsr,switchMsr]
  cases msrSlot index with
  | none => rfl
  | some slot => rw [erase_bind,erase_record,erase_perform,pure_bind]

theorem erase_msrLoop (list : Ptr) (fuel : ℕ) (i : ℤ) (s : KVMState) :
    erase (tracedMsrLoop list fuel i s : TracedC W KVMState) = msrLoop list fuel i s := by
  induction fuel generalizing i s with
  | zero => rfl
  | succ fuel ih =>
    rw [tracedMsrLoop,msrLoop,erase_bind,erase_perform]
    congr 1
    funext block
    split_ifs with h
    · simp only [tracedMsrBody,erase_record,erase_bind,erase_perform,erase_switchMsr,ih,pure_bind,
        bind_assoc]
    · rfl

theorem erase_hasEnabledMSR (s : Option KVMState) (msr : UInt32) :
    erase (tracedHasEnabledMSR s msr : TracedC W ℤ) = kvmStateHasEnabledMSR s msr := by
  rw [tracedHasEnabledMSR.eq_def,kvmStateHasEnabledMSR.eq_def]
  cases s with
  | none => rfl
  | some s =>
    dsimp only
    split_ifs with h
    · rfl
    · cases s.msrs[msr.toNat]? <;> rfl

end source

section kernel
variable (k : Kernel)

-- How many indices a call with room for `capacity` of them writes behind the length field.
def indicesWritten (fd : ℤ) (clock : ℕ) (capacity : UInt32) : ℕ :=
  match k.msrIndexList clock fd with
  | .error _ => 0
  | .ok table => if capacity < UInt32.ofNat table.val.length then 0 else table.val.length

def tracedAllocMsrList (nmsrs : UInt32) : TracedC Sys (Option Ptr) := do
  match ← perform (kvmAllocMsrList k.calloc nmsrs) with
  | none => return none
  | some p => do
      record (.allocated p (msrSize nmsrs))
      return some p

def tracedFillMsrList (fd : ℤ) (list : Ptr) : TracedC Sys (Option Ptr) := do
  let block ← perform (load list)
  let m ← perform get
  record (.filled list (indicesWritten k fd m.world.clock block.nmsrs))
  let (ret,block) ← perform (ioctlMsrIndexList k fd block)
  perform (store list block)
  if ret < 0 then do
    record (.freed list)
    perform (free list)
    return none
  else return some list

def tracedGetMsrList (fd : ℤ) : TracedC Sys (Option Ptr) := do
  let (ret,msrList) ← perform (ioctlMsrIndexList k fd ⟨0,[]⟩)
  if ret < 0 ∧ ret ≠ -E2BIG then return none
  else
    match ← tracedAllocMsrList k msrList.nmsrs with
    | none => return none
    | some list => tracedFillMsrList k fd list

def tracedGetSupportedMSRs (s : KVMState) : TracedC Sys (ℤ × KVMState) := do
  match ← tracedGetMsrList k s.fd with
  | none => return (-1,s)
  | some list => do
      let s ← tracedMsrLoop list loopFuel 0 s
      record (.freed list)
      perform (free list)
      return (0,s)

theorem erase_allocMsrList (nmsrs : UInt32) :
    erase (tracedAllocMsrList k nmsrs) = kvmAllocMsrList k.calloc nmsrs := by
  rw [tracedAllocMsrList,erase_bind,erase_perform]
  conv_rhs => rw [← bind_pure (kvmAllocMsrList k.calloc nmsrs)]
  congr 1
  funext r
  cases r <;> rfl

theorem erase_fillMsrList (fd : ℤ) (list : Ptr) :
    erase (tracedFillMsrList k fd list) = fillMsrList k fd list := by
  rw [tracedFillMsrList,fillMsrList,erase_bind,erase_perform]
  congr 1
  funext block
  have hget (p : C Sys (Option Ptr)) : (get >>= fun _ => p) = p := rfl
  simp only [erase_bind,erase_perform,erase_record,pure_bind,hget]
  congr 1
  funext r
  congr 1
  funext u
  split_ifs
  · simp only [erase_bind,erase_perform,erase_record,pure_bind,erase_pure]
  · rfl

theorem erase_getMsrList (fd : ℤ) : erase (tracedGetMsrList k fd) = kvmGetMsrList k fd := by
  rw [tracedGetMsrList,kvmGetMsrList,erase_bind,erase_perform]
  congr 1
  funext r
  dsimp only
  split_ifs
  · rfl
  · rw [erase_bind,erase_allocMsrList]
    congr 1
    funext list
    cases list with
    | none => rfl
    | some list => exact erase_fillMsrList k fd list

theorem erase_getSupportedMSRs (s : KVMState) :
    erase (tracedGetSupportedMSRs k s) = kvmGetSupportedMSRs (kernelIo k) s := by
  rw [tracedGetSupportedMSRs,kvmGetSupportedMSRs,erase_bind,erase_getMsrList]
  congr 1
  funext list
  cases list with
  | none => rfl
  | some list =>
    simp only [erase_bind,erase_msrLoop,erase_record,erase_perform,erase_pure,pure_bind]

end kernel

section loop
variable {W : Type} {m : Machine W} {list : Ptr} {block : MsrBlock}

@[simp] theorem positions_index (i : ℤ) (log : List Access) :
    positions (.index i :: log) = i :: positions log := rfl

@[simp] theorem positions_append (log log' : List Access) :
    positions (log ++ log') = positions log ++ positions log' :=
  List.filterMap_append

theorem yields_switchMsr (s : KVMState) (index : UInt32) :
    ∃ log, Yields (tracedSwitchMsr s index) m log (mark s index) m ∧ positions log = [] := by
  have hrun := runs_mark (m := m) (s := s) index
  rw [switchMsr] at hrun
  rw [tracedSwitchMsr]
  cases h : msrSlot index with
  | none =>
    rw [h] at hrun
    exact ⟨[],yields_perform hrun,rfl⟩
  | some slot =>
    rw [h] at hrun
    exact ⟨[.flag slot],yields_record (yields_perform hrun),rfl⟩

theorem yields_msrBody {i : ℕ} (hi : i < block.indices.length) (s : KVMState) :
    ∃ log s', Yields (tracedMsrBody block i s) m log s' m ∧ positions log = [(i : ℤ)] := by
  obtain ⟨log,hswitch,hp⟩ := yields_switchMsr (m := m) s block.indices[i]
  exact ⟨_,_,yields_record (yields_after (runs_readIndex hi) hswitch),by simp [hp]⟩

theorem msrLoop_round (hb : m.heap.blocks list = some block)
    (hfit : block.nmsrs.toNat ≤ block.indices.length) {i : ℕ} (hi : i < block.nmsrs.toNat)
    (fuel : ℕ) (s : KVMState) :
    ∃ log s₁, positions log = [(i : ℤ)] ∧
      (∀ log' s₂, Yields (perform (incInt i) >>= fun i => tracedMsrLoop list fuel i s₁) m log' s₂ m →
        Yields (tracedMsrLoop list (fuel + 1) i s) m (log ++ log') s₂ m) ∧
      ∀ log' e, Aborts (perform (incInt i) >>= fun i => tracedMsrLoop list fuel i s₁) m log' e →
        Aborts (tracedMsrLoop list (fuel + 1) i s) m (log ++ log') e := by
  obtain ⟨log,s₁,hbody,hp⟩ := yields_msrBody (m := m) (hi.trans_le hfit) s
  have hlt : toUnsigned i < block.nmsrs.toNat := by
    rwa [toUnsigned_natCast (hi.trans block.nmsrs.toNat_lt)]
  refine ⟨log,s₁,hp,fun log' s₂ h => yields_after (runs_load hb) ?_,
    fun log' e h => aborts_after (runs_load hb) ?_⟩
  · rw [if_pos hlt]
    exact hbody.bind h
  · rw [if_pos hlt]
    exact hbody.bind_aborts h

theorem yields_msrLoop (hb : m.heap.blocks list = some block)
    (hfit : block.nmsrs.toNat ≤ block.indices.length) (hmax : block.nmsrs.toNat < 2 ^ 31)
    (n fuel i : ℕ) (hn : i + n = block.nmsrs.toNat) (hfuel : n < fuel) (s : KVMState) :
    ∃ log s', Yields (tracedMsrLoop list fuel i s) m log s' m ∧
      positions log = (List.range' i n).map Nat.cast := by
  induction n generalizing fuel i s with
  | zero =>
    obtain ⟨fuel,rfl⟩ : ∃ f, fuel = f + 1 := ⟨fuel - 1,by omega⟩
    refine ⟨[],s,yields_after (runs_load hb) ?_,rfl⟩
    rw [toUnsigned_natCast (by omega),if_neg (by omega)]
    exact yields_pure
  | succ n ih =>
    obtain ⟨fuel,rfl⟩ : ∃ f, fuel = f + 1 := ⟨fuel - 1,by omega⟩
    have hinc : Runs (incInt i) m ((i + 1 : ℕ) : ℤ) m := runs_incInt (by unfold intMax; omega)
    obtain ⟨log₁,s₁,hp₁,hround,-⟩ := msrLoop_round hb hfit (by omega : i < _) fuel s
    obtain ⟨log₂,s₂,hloop,hp₂⟩ := ih fuel (i + 1) (by omega) (by omega) s₁
    refine ⟨log₁ ++ log₂,s₂,hround log₂ s₂ (yields_after hinc hloop),?_⟩
    rw [positions_append,hp₁,hp₂,List.range'_succ]
    rfl

theorem aborts_msrLoop (hb : m.heap.blocks list = some block)
    (hfit : block.nmsrs.toNat ≤ block.indices.length) (hmax : 2 ^ 31 ≤ block.nmsrs.toNat)
    (n fuel i : ℕ) (hn : i + n + 1 = 2 ^ 31) (hfuel : n < fuel) (s : KVMState) :
    ∃ log, Aborts (tracedMsrLoop list fuel i s) m log .signedOverflow ∧
      positions log = (List.range' i (n + 1)).map Nat.cast := by
  induction n generalizing fuel i s with
  | zero =>
    obtain ⟨fuel,rfl⟩ : ∃ f, fuel = f + 1 := ⟨fuel - 1,by omega⟩
    have hinc : Faults (incInt (W := W) i) m .signedOverflow := by
      rw [incInt,if_neg (by unfold intMax; omega)]
      exact faults_throw
    obtain ⟨log₁,s₁,hp₁,-,hround⟩ := msrLoop_round hb hfit (by omega : i < _) fuel s
    exact ⟨log₁ ++ [],hround [] _ (aborts_perform hinc).bind,by simpa using hp₁⟩
  | succ n ih =>
    obtain ⟨fuel,rfl⟩ : ∃ f, fuel = f + 1 := ⟨fuel - 1,by omega⟩
    have hinc : Runs (incInt i) m ((i + 1 : ℕ) : ℤ) m := runs_incInt (by unfold intMax; omega)
    obtain ⟨log₁,s₁,hp₁,-,hround⟩ := msrLoop_round hb hfit (by omega : i < _) fuel s
    obtain ⟨log₂,hloop,hp₂⟩ := ih fuel (i + 1) (by omega) (by omega) s₁
    refine ⟨log₁ ++ log₂,hround log₂ _ (aborts_after hinc hloop),?_⟩
    rw [positions_append,hp₁,hp₂,List.range'_succ (n := n + 1)]
    rfl

theorem msrLoop_records {P : Access → Prop} (hindex : ∀ i, P (.index i))
    (hflag : ∀ slot < KVMINFO_MSR_HV_NUM, P (.flag slot)) (fuel : ℕ) (i : ℤ) (s : KVMState) :
    Records (tracedMsrLoop list fuel i s : TracedC W KVMState) P := by
  have hswitch (s : KVMState) (index : UInt32) :
      Records (tracedSwitchMsr s index : TracedC W KVMState) P := by
    rw [tracedSwitchMsr]
    cases h : msrSlot index with
    | none => exact records_pure s
    | some slot => exact records_record (hflag slot (msrSlot_lt h)) (records_perform _)
  induction fuel generalizing i s with
  | zero => exact records_perform _
  | succ fuel ih =>
    refine records_after (fun block => ?_)
    split_ifs
    · have hbody : Records (tracedMsrBody block i s : TracedC W KVMState) P :=
        records_record (hindex i) (records_after (hswitch s))
      exact hbody.bind (fun s => records_after (fun i => ih i s))
    · exact records_pure s

theorem runs_msrLoop_mono {fuel fuel' : ℕ} {i : ℤ} {s s' : KVMState} {m m' : Machine W}
    (h : Runs (msrLoop list fuel i s) m s' m') (hle : fuel ≤ fuel') :
    Runs (msrLoop list fuel' i s) m s' m' := by
  induction fuel generalizing fuel' i s m with
  | zero => exact absurd faults_throw h.not_faults
  | succ fuel ih =>
    obtain ⟨fuel',rfl⟩ : ∃ f, fuel' = f + 1 := ⟨fuel' - 1,by omega⟩
    obtain ⟨block,m₁,hload,h⟩ := runs_bind_iff.mp h
    refine runs_bind_iff.mpr ⟨block,m₁,hload,?_⟩
    split_ifs at h ⊢ with hlt
    · obtain ⟨index,m₂,hread,h⟩ := runs_bind_iff.mp h
      obtain ⟨s₁,m₃,hswitch,h⟩ := runs_bind_iff.mp h
      obtain ⟨j,m₄,hinc,h⟩ := runs_bind_iff.mp h
      exact hread.bind (hswitch.bind (hinc.bind (ih h (by omega))))
    · exact h

def ScansOnce (list : Ptr) (nmsrs fuel : ℕ) (s : KVMState) (m : Machine W) : Prop :=
  ∃ log s', Runs (msrLoop list fuel 0 s) m s' m ∧ Yields (tracedMsrLoop list fuel 0 s) m log s' m ∧
    positions log = (List.range nmsrs).map Nat.cast

theorem long_list_unscanned (hb : m.heap.blocks list = some block)
    (hfit : block.nmsrs.toNat ≤ block.indices.length) (hmax : 2 ^ 31 ≤ block.nmsrs.toNat)
    (fuel : ℕ) (s : KVMState) : ¬ScansOnce list block.nmsrs.toNat fuel s m := by
  rintro ⟨log,s',hrun,-,-⟩
  have hlong := runs_msrLoop_mono hrun (fuel.le_add_right (2 ^ 31))
  obtain ⟨log',habort,-⟩ := aborts_msrLoop hb hfit hmax (2 ^ 31 - 1) (fuel + 2 ^ 31) 0 (by omega)
    (by omega) s
  exact hlong.not_faults (habort.faults (erase_msrLoop list _ _ s))

theorem msrLoop_scans_iff (hb : m.heap.blocks list = some block)
    (hfit : block.nmsrs.toNat ≤ block.indices.length) (s : KVMState) :
    (∃ fuel, ScansOnce list block.nmsrs.toNat fuel s m) ↔ block.nmsrs.toNat < 2 ^ 31 := by
  constructor
  · rintro ⟨fuel,hscan⟩
    by_contra hmax
    exact long_list_unscanned hb hfit (not_lt.mp hmax) fuel s hscan
  · intro hmax
    obtain ⟨log,s',hrun,hp⟩ := yields_msrLoop hb hfit hmax block.nmsrs.toNat (block.nmsrs.toNat + 1) 0
      (by omega) (by omega) s
    have hplain := hrun.runs (erase_msrLoop list _ _ s)
    exact ⟨_,log,s',hplain,hrun,by rw [hp,List.range_eq_range']⟩

end loop

def holding (block : MsrBlock) : Machine Unit :=
  ⟨(),⟨fun p => if p = 0 then some block else none,1,1⟩,[]⟩

def pairBlock : MsrBlock := ⟨2,[HV_X64_MSR_CRASH_CTL,HV_X64_MSR_RESET]⟩

def hugeBlock : MsrBlock := ⟨0x80000000,List.replicate (2 ^ 31) 0⟩

theorem msrLoop_scans_pair : ∃ fuel, ScansOnce 0 2 fuel KVMState.init (holding pairBlock) :=
  have hb : (holding pairBlock).heap.blocks 0 = some pairBlock := rfl
  (msrLoop_scans_iff hb (by decide) KVMState.init).mpr (by decide)

theorem msrLoop_overflows :
    ¬∀ (m : Machine Unit) (list : Ptr) (block : MsrBlock) (s : KVMState),
      m.heap.blocks list = some block → block.nmsrs.toNat ≤ block.indices.length →
      ∃ fuel, ScansOnce list block.nmsrs.toNat fuel s m := by
  intro h
  have hb : (holding hugeBlock).heap.blocks 0 = some hugeBlock := rfl
  have hn : hugeBlock.nmsrs.toNat = 2 ^ 31 := rfl
  have hfit : hugeBlock.nmsrs.toNat ≤ hugeBlock.indices.length := by
    rw [hn,hugeBlock,List.length_replicate]
  obtain ⟨fuel,hscan⟩ := h (holding hugeBlock) 0 hugeBlock KVMState.init hb hfit
  exact long_list_unscanned hb hfit hn.ge fuel KVMState.init hscan

end Caps
