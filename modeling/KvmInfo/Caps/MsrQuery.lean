import KvmInfo.Caps.Accesses
import KvmInfo.Caps.HostScan

namespace Caps
open Exec Tracing

def Access.allocates? : Access → Option Ptr
  | .allocated p _ => some p
  | _ => none

def Access.frees? : Access → Option Ptr
  | .freed p => some p
  | _ => none

def allocations (log : List Access) : List Ptr := log.filterMap Access.allocates?

def frees (log : List Access) : List Ptr := log.filterMap Access.frees?

theorem allocations_append (log log' : List Access) :
    allocations (log ++ log') = allocations log ++ allocations log' :=
  List.filterMap_append

theorem frees_append (log log' : List Access) : frees (log ++ log') = frees log ++ frees log' :=
  List.filterMap_append

-- Neither call fails for a reason of its own, the allocation succeeds and what the kernel has at
-- the second call fits in the count of the first.
structure Kernel.Fills (k : Kernel) (m : Host) (fd : ℤ) (first second : MsrTable) : Prop where
  lists : k.msrIndexList m.world.clock fd = .ok first
  allocates : k.calloc m.heap.calls = true
  listsAgain : k.msrIndexList (m.world.clock + 1) fd = .ok second
  fits : second.val.length ≤ first.val.length

theorem msrSize_fits (nmsrs : UInt32) : 4 + 4 * nmsrs.toNat ≤ msrSize nmsrs := by
  have := nmsrs.toNat_lt
  unfold msrSize sizeT
  omega

theorem indicesWritten_fits {k : Kernel} {fd : ℤ} {clock : ℕ} {capacity : UInt32} {table : MsrTable}
    (h : k.msrIndexList clock fd = .ok table) (hfit : table.val.length ≤ capacity.toNat) :
    indicesWritten k fd clock capacity = table.val.length := by
  rw [indicesWritten,h]
  exact if_neg (by rw [UInt32.lt_iff_toNat_lt,toNat_length]; omega)

theorem ioctl_frame {k : Kernel} {fd ret : ℤ} {m m' : Host} {list block : MsrBlock}
    (h : Runs (ioctlMsrIndexList k fd list) m (ret,block) m')
    (hcap : list.nmsrs.toNat ≤ list.indices.length) :
    block.indices.drop (indicesWritten k fd m.world.clock list.nmsrs) =
      list.indices.drop (indicesWritten k fd m.world.clock list.nmsrs) := by
  cases hq : k.msrIndexList m.world.clock fd with
  | error err =>
    obtain ⟨⟨⟩,-⟩ := h.functional (runs_ioctl_error hq)
    rfl
  | ok table =>
    by_cases hbig : list.nmsrs.toNat < table.val.length
    · obtain ⟨⟨⟩,-⟩ := h.functional (runs_ioctl_big hq hbig)
      rfl
    · obtain ⟨⟨⟩,-⟩ := h.functional (runs_ioctl_fits hq (not_lt.mp hbig) hcap)
      rw [indicesWritten_fits hq (not_lt.mp hbig)]
      exact List.drop_left

theorem indicesWritten_le (k : Kernel) (fd : ℤ) (clock : ℕ) (capacity : UInt32) :
    indicesWritten k fd clock capacity ≤ capacity.toNat := by
  rw [indicesWritten]
  cases k.msrIndexList clock fd with
  | error err => exact Nat.zero_le _
  | ok table =>
    dsimp only
    split_ifs with h
    · exact Nat.zero_le _
    · rwa [UInt32.not_lt,UInt32.le_iff_toNat_le,toNat_length] at h

section query
variable {k : Kernel} {m : Host} {fd : ℤ}

theorem yields_fillMsrList {list : Ptr} {old block : MsrBlock} {ret : ℤ}
    (hold : m.heap.blocks list = some old)
    (hioctl : Runs (ioctlMsrIndexList k fd old) m (ret,block) (m.onSys Sys.tick)) :
    Yields (tracedFillMsrList k fd list) m
      (.filled list (indicesWritten k fd m.world.clock old.nmsrs) ::
        if ret < 0 then [.freed list] else [])
      (if ret < 0 then none else some list)
      ((m.onSys Sys.tick).withHeap (m.heap.set list (if ret < 0 then none else some block))) := by
  have hstore : Runs (store list block) (m.onSys Sys.tick) () _ := runs_store hold
  refine yields_after (runs_load hold) (yields_after runs_get (yields_record ?_))
  refine yields_after hioctl (yields_after hstore ?_)
  split_ifs
  · refine yields_record (yields_after (runs_free (set_self _ _ _)) ?_)
    rw [withHeap_heap,set_set]
    exact yields_pure
  · exact yields_pure

theorem yields_getMsrList {first : MsrTable} {log : List Access} {r : Option Ptr} {m' : Host}
    (h : k.msrIndexList m.world.clock fd = .ok first) (hcalloc : k.calloc m.heap.calls = true)
    (hfill : Yields (tracedFillMsrList k fd m.heap.next) (Host.allocated m first) log r m') :
    Yields (tracedGetMsrList k fd) m
      (.allocated m.heap.next (msrSize (UInt32.ofNat first.val.length)) :: log) r m' := by
  obtain ⟨ret,hfirst,hret⟩ := runs_ioctl_first h
  have halloc : Yields (tracedAllocMsrList k (UInt32.ofNat first.val.length)) (m.onSys Sys.tick)
      [.allocated m.heap.next (msrSize (UInt32.ofNat first.val.length))] (some m.heap.next)
      (Host.allocated m first) :=
    yields_after (runs_allocate first hcalloc) (yields_record yields_pure)
  refine yields_after hfirst ?_
  dsimp only
  rw [if_neg hret]
  exact halloc.bind hfill

def FillsOnly (k : Kernel) (m : Host) (fd : ℤ) (count : ℕ) : Prop :=
  ∃ (first : MsrTable) (ret : ℤ) (block : MsrBlock), k.msrIndexList m.world.clock fd = .ok first ∧
    Runs (ioctlMsrIndexList k fd (freshBlock (UInt32.ofNat first.val.length)))
      (Host.allocated m first) (ret,block) (Machine.onSys (Host.allocated m first) Sys.tick) ∧
    block.indices.drop count = (freshBlock (UInt32.ofNat first.val.length)).indices.drop count

inductive Outcome (k : Kernel) (m : Host) (fd : ℤ) : List Access → Option Ptr → Host → Prop where
  | unallocated (m' : Host) : Outcome k m fd [] none m'
  | released {p : Ptr} {size count : ℕ} {m' : Host} (hfit : 4 + 4 * count ≤ size)
      (hframe : FillsOnly k m fd count) (hfree : m'.heap.blocks p = none) :
      Outcome k m fd [.allocated p size,.filled p count,.freed p] none m'
  | returned {p : Ptr} {size : ℕ} {block : MsrBlock} {m' : Host} {first second : MsrTable}
      (hfills : k.Fills m fd first second) (hfit : 4 + 4 * second.val.length ≤ size)
      (hframe : FillsOnly k m fd second.val.length) (hslots : second.val.length ≤ block.indices.length)
      (hb : m'.heap.blocks p = some block) (hn : block.nmsrs.toNat = second.val.length)
      (hl : block.indices.take second.val.length = second.val) :
      Outcome k m fd [.allocated p size,.filled p second.val.length] (some p) m'

theorem allocated_filled (k : Kernel) (fd : ℤ) (first : MsrTable) (clock : ℕ) :
    4 + 4 * indicesWritten k fd clock (freshBlock (UInt32.ofNat first.val.length)).nmsrs ≤
      msrSize (UInt32.ofNat first.val.length) := by
  have hcount := indicesWritten_le k fd clock (freshBlock (UInt32.ofNat first.val.length)).nmsrs
  exact (Nat.add_le_add_left (Nat.mul_le_mul_left 4 hcount) 4).trans (msrSize_fits _)

theorem outcome_refused {first : MsrTable} {ret : ℤ} {block : MsrBlock}
    (h : k.msrIndexList m.world.clock fd = .ok first) (hcalloc : k.calloc m.heap.calls = true)
    (hioctl : Runs (ioctlMsrIndexList k fd (freshBlock (UInt32.ofNat first.val.length)))
      (Host.allocated m first) (ret,block) (Machine.onSys (Host.allocated m first) Sys.tick))
    (hret : ret < 0) :
    ∃ log m', Yields (tracedGetMsrList k fd) m log none m' ∧ Outcome k m fd log none m' := by
  have hfill := yields_fillMsrList (allocated_block m first) hioctl
  rw [if_pos hret,if_pos hret,if_pos hret] at hfill
  have hframe : FillsOnly k m fd _ := ⟨first,ret,block,h,hioctl,ioctl_frame hioctl (freshBlock_fits _)⟩
  exact ⟨_,_,yields_getMsrList h hcalloc hfill,
    .released (allocated_filled k fd first _) hframe (set_self _ _ _)⟩

theorem outcome_filled {first second : MsrTable} (hf : k.Fills m fd first second) :
    ∃ log r m', Yields (tracedGetMsrList k fd) m log (some r) m' ∧ Outcome k m fd log (some r) m' := by
  have hsecond : k.msrIndexList (Host.allocated m first).world.clock fd = .ok second := hf.listsAgain
  have hn : (UInt32.ofNat second.val.length).toNat = second.val.length := toNat_length second
  have hcap : second.val.length ≤ (freshBlock (UInt32.ofNat first.val.length)).nmsrs.toNat := by
    rw [freshBlock_nmsrs]
    exact hf.fits
  have hioctl := runs_ioctl_fits hsecond hcap (freshBlock_fits _)
  have hcount := indicesWritten_fits hsecond hcap
  have hfill := yields_fillMsrList (allocated_block m first) hioctl
  have hfit := allocated_filled k fd first (Host.allocated m first).world.clock
  have hframe := ioctl_frame hioctl (freshBlock_fits _)
  rw [hcount] at hfill hfit hframe
  exact ⟨_,_,_,yields_getMsrList hf.lists hf.allocates hfill,
    .returned hf hfit ⟨first,_,_,hf.lists,hioctl,hframe⟩ (by simp) (set_self _ _ _) hn
      (List.take_left)⟩

theorem outcome_failed {err : Errno} (h : k.msrIndexList m.world.clock fd = .error err) :
    ∃ log m', Yields (tracedGetMsrList k fd) m log none m' ∧ Outcome k m fd log none m' := by
  have hneg : -err.val < 0 ∧ -err.val ≠ -E2BIG := by
    have := err.property
    omega
  refine ⟨[],m.onSys Sys.tick,yields_after (runs_ioctl_error h) ?_,.unallocated _⟩
  dsimp only
  rw [if_pos hneg]
  exact yields_pure

theorem outcome_unallocated {first : MsrTable} (h : k.msrIndexList m.world.clock fd = .ok first)
    (hcalloc : k.calloc m.heap.calls = false) :
    ∃ log m', Yields (tracedGetMsrList k fd) m log none m' ∧ Outcome k m fd log none m' := by
  obtain ⟨ret,hfirst,hret⟩ := runs_ioctl_first h
  have hnull : Runs (kvmAllocMsrList k.calloc (UInt32.ofNat first.val.length)) (m.onSys Sys.tick)
      none ((m.onSys Sys.tick).withHeap m.heap.failed) := runs_kvmAllocMsrList_fail hcalloc
  have halloc : Yields (tracedAllocMsrList k (UInt32.ofNat first.val.length)) (m.onSys Sys.tick) []
      none ((m.onSys Sys.tick).withHeap m.heap.failed) :=
    yields_after hnull yields_pure
  refine ⟨[] ++ [],_,yields_after hfirst ?_,.unallocated ((m.onSys Sys.tick).withHeap m.heap.failed)⟩
  dsimp only
  rw [if_neg hret]
  exact halloc.bind yields_pure

theorem outcome_unfilled (h : ∀ first second, ¬k.Fills m fd first second) :
    ∃ log m', Yields (tracedGetMsrList k fd) m log none m' ∧ Outcome k m fd log none m' := by
  cases h₁ : k.msrIndexList m.world.clock fd with
  | error err => exact outcome_failed h₁
  | ok first =>
    cases hcalloc : k.calloc m.heap.calls with
    | false => exact outcome_unallocated h₁ hcalloc
    | true =>
      cases h₂ : k.msrIndexList (m.world.clock + 1) fd with
      | error err =>
        exact outcome_refused h₁ hcalloc (runs_ioctl_error h₂) (by have := err.property.1; omega)
      | ok second =>
        have hbig : first.val.length < second.val.length := by
          by_contra hle
          exact h first second ⟨h₁,hcalloc,h₂,not_lt.mp hle⟩
        exact outcome_refused h₁ hcalloc (runs_ioctl_big h₂ (by rwa [freshBlock_nmsrs])) (by decide)

structure QueryExact (k : Kernel) (m : Host) (fd : ℤ) (log : List Access) (r : Option Ptr)
    (m' : Host) : Prop where
  inside : ∀ p count, .filled p count ∈ log → FillsOnly k m fd count ∧
    ∃ size, .allocated p size ∈ log ∧ 4 + 4 * count ≤ size
  returned : r ≠ none ↔ ∃ first second, k.Fills m fd first second
  listed : ∀ p, r = some p → ∃ size block first second, .allocated p size ∈ log ∧
    k.Fills m fd first second ∧ m'.heap.blocks p = some block ∧
    4 + 4 * block.nmsrs.toNat ≤ size ∧ block.nmsrs.toNat = second.val.length ∧
    block.indices.take block.nmsrs.toNat = second.val

theorem Outcome.filled_fits {log : List Access} {r : Option Ptr} {m' : Host}
    (h : Outcome k m fd log r m') {p : Ptr} {count : ℕ} (hp : .filled p count ∈ log) :
    FillsOnly k m fd count ∧ ∃ size, .allocated p size ∈ log ∧ 4 + 4 * count ≤ size := by
  cases h with
  | unallocated => simp at hp
  | @released p' size count' _ hfit hframe hfree =>
    obtain ⟨rfl,rfl⟩ : p = p' ∧ count = count' := by simpa using hp
    exact ⟨hframe,size,by simp,hfit⟩
  | @returned p' size block _ first second hfills hfit hframe hslots hb hn hl =>
    obtain ⟨rfl,rfl⟩ : p = p' ∧ count = second.val.length := by simpa using hp
    exact ⟨hframe,size,by simp,hfit⟩

theorem Outcome.listed {log : List Access} {p : Ptr} {m' : Host}
    (h : Outcome k m fd log (some p) m') :
    ∃ size block first second, .allocated p size ∈ log ∧ k.Fills m fd first second ∧
      m'.heap.blocks p = some block ∧ 4 + 4 * block.nmsrs.toNat ≤ size ∧
      block.nmsrs.toNat = second.val.length ∧
      block.indices.take block.nmsrs.toNat = second.val := by
  cases h with
  | @returned _ size block _ first second hfills hfit hframe hslots hb hn hl =>
    exact ⟨size,block,first,second,by simp,hfills,hb,by rwa [hn],hn,by rwa [hn]⟩

theorem getMsrList_exact (k : Kernel) (m : Host) (fd : ℤ) :
    ∃ log r m', Yields (tracedGetMsrList k fd) m log r m' ∧ QueryExact k m fd log r m' := by
  by_cases hfills : ∃ first second, k.Fills m fd first second
  · obtain ⟨first,second,hf⟩ := hfills
    obtain ⟨log,p,m',hrun,hout⟩ := outcome_filled hf
    refine ⟨log,some p,m',hrun,fun _ _ => hout.filled_fits,?_,?_⟩
    · exact ⟨fun _ => ⟨first,second,hf⟩,fun _ => Option.some_ne_none p⟩
    · rintro _ ⟨⟩
      exact hout.listed
  · obtain ⟨log,m',hrun,hout⟩ := outcome_unfilled (fun first second hf => hfills ⟨first,second,hf⟩)
    refine ⟨log,none,m',hrun,fun _ _ => hout.filled_fits,?_,?_⟩
    · exact ⟨fun hne => absurd rfl hne,fun hf => absurd hf hfills⟩
    · rintro p ⟨⟩

end query

structure FreedOnce (log : List Access) (m : Host) : Prop where
  once : frees log = allocations log
  single : (allocations log).length ≤ 1
  gone : ∀ p ∈ allocations log, m.heap.blocks p = none

theorem loop_ledger (list : Ptr) (s : KVMState) {log : List Access} {s' : KVMState} {m m' : Host}
    (h : Yields (tracedMsrLoop list loopFuel 0 s) m log s' m') :
    allocations log = [] ∧ frees log = [] := by
  have hloop : Records (tracedMsrLoop list loopFuel 0 s : TracedC Sys KVMState)
      (fun e => e.allocates? = none ∧ e.frees? = none) :=
    msrLoop_records (fun _ => ⟨rfl,rfl⟩) (fun _ _ => ⟨rfl,rfl⟩) loopFuel 0 s
  have hrecords := hloop m
  rw [h.log_eq] at hrecords
  exact ⟨List.filterMap_eq_nil_iff.mpr (fun e he => (hrecords e he).1),
    List.filterMap_eq_nil_iff.mpr (fun e he => (hrecords e he).2)⟩

theorem getSupportedMSRs_freed (k : Kernel) (m : Host) (s : KVMState)
    (hmax : ∀ first second, k.Fills m s.fd first second → second.val.length < 2 ^ 31) :
    ∃ log r m', Yields (tracedGetSupportedMSRs k s) m log r m' ∧ FreedOnce log m' := by
  by_cases hfills : ∃ first second, k.Fills m s.fd first second
  · obtain ⟨first,second,hf⟩ := hfills
    obtain ⟨log,list,m₁,hget,hout⟩ := outcome_filled hf
    cases hout with
    | @returned _ size block _ first' second' hf' hfit hframe hslots hb hn hl =>
      have hlt := hmax first' second' hf'
      rw [← hn] at hslots hlt
      obtain ⟨log₂,s',hloop,-⟩ := yields_msrLoop hb hslots hlt block.nmsrs.toNat loopFuel 0
        (by omega) (by unfold loopFuel; omega) s
      obtain ⟨halloc,hfree⟩ := loop_ledger list s hloop
      have hrun : Yields (do
            record (.freed list)
            perform (free list)
            return ((0 : ℤ),s') : TracedC Sys (ℤ × KVMState)) m₁ [.freed list] (0,s')
          (m₁.withHeap (m₁.heap.set list none)) :=
        yields_record (yields_after (runs_free hb) yields_pure)
      have hallocs : allocations ([.allocated list size,.filled list second'.val.length] ++
          (log₂ ++ [.freed list])) = [list] := by
        simp only [allocations_append,halloc]
        rfl
      have hfrees : frees ([.allocated list size,.filled list second'.val.length] ++
          (log₂ ++ [.freed list])) = [list] := by
        simp only [frees_append,hfree]
        rfl
      refine ⟨_,_,_,hget.bind (hloop.bind hrun),hfrees.trans hallocs.symm,?_,?_⟩
      · rw [hallocs]
        exact le_rfl
      · rw [hallocs]
        intro p hp
        rw [List.mem_singleton.mp hp]
        exact set_self _ _ _
  · obtain ⟨log,m₁,hget,hout⟩ := outcome_unfilled (fun first second hf => hfills ⟨first,second,hf⟩)
    refine ⟨log ++ [],_,m₁,hget.bind yields_pure,?_⟩
    cases hout with
    | unallocated => exact ⟨rfl,by decide,by simp [allocations]⟩
    | released hfit hframe hfree => exact ⟨rfl,by simp [allocations,Access.allocates?],by simpa [allocations,Access.allocates?] using hfree⟩

theorem msr_query_exact (k : Kernel) (m : Host) (s : KVMState) :
    (∃ log r m', Runs (kvmGetMsrList k s.fd) m r m' ∧
      Yields (tracedGetMsrList k s.fd) m log r m' ∧ QueryExact k m s.fd log r m') ∧
    ((∀ first second, k.Fills m s.fd first second → second.val.length < 2 ^ 31) →
      ∃ log r m', Runs (kvmGetSupportedMSRs (kernelIo k) s) m r m' ∧
        Yields (tracedGetSupportedMSRs k s) m log r m' ∧ FreedOnce log m') := by
  constructor
  · obtain ⟨log,r,m',hrun,hexact⟩ := getMsrList_exact k m s.fd
    exact ⟨log,r,m',hrun.runs (erase_getMsrList k s.fd),hrun,hexact⟩
  · intro hmax
    obtain ⟨log,r,m',hrun,hfreed⟩ := getSupportedMSRs_freed k m s hmax
    exact ⟨log,r,m',hrun.runs (erase_getSupportedMSRs k s),hrun,hfreed⟩

theorem msr_query_exact_reset :
    ∃ log r m', Runs (kvmGetSupportedMSRs (kernelIo resetKernel) KVMState.init) bootHost r m' ∧
      Yields (tracedGetSupportedMSRs resetKernel KVMState.init) bootHost log r m' ∧
      FreedOnce log m' := by
  refine (msr_query_exact resetKernel bootHost KVMState.init).2 (fun first second h => ?_)
  have hsecond : (.ok resetTable : Except Errno MsrTable) = .ok second := h.listsAgain
  cases hsecond
  decide

end Caps
